import SonarJavascript.Regex.TokenizedLiteral

/-!
# Source ranges of regular expressions

`helpers/regex/range.ts`. The tokens of a string literal are taken for the characters of the pattern as a `RegExp`
object writes it. The range of a node is right exactly if the tokens with the indices of its first and its last
character are read from the elements that denote these characters: `getRegexpRange_iff`.
-/

namespace SonarJavascript.Regex

open Node (Visit visits raw rawJoined visitsJoined)

/-! ### The text of a `RegExp` object -/

def lineTerminatorEscape (unit : ℕ) : Option JsString :=
  if unit = 10 then some (units "\\n") else if unit = 13 then some (units "\\r")
  else if unit = lineSeparator then some (units "\\u2028")
  else if unit = paragraphSeparator then some (units "\\u2029") else none

/-- What each unit of a pattern is written as: slashes outside of classes and line terminators are escaped, unless a
backslash before them does so already. -/
def escapeRegExpPattern : (inClass escaped : Bool) → JsString → List JsString
  | _, _, [] => []
  | inClass, true, unit :: rest =>
    ((lineTerminatorEscape unit).map List.tail).getD [unit] :: escapeRegExpPattern inClass false rest
  | inClass, false, unit :: rest =>
    if unit = 92 then [92] :: escapeRegExpPattern inClass true rest
    else if unit = 47 ∧ inClass = false then [92, 47] :: escapeRegExpPattern inClass false rest
    else (lineTerminatorEscape unit).getD [unit] ::
      escapeRegExpPattern (unit = 91 || (inClass && unit ≠ 93)) false rest

/-- `RegExp.prototype.source` -/
def source (pattern : JsString) : JsString :=
  if pattern = [] then units "(?:)" else (escapeRegExpPattern false false pattern).flatten

theorem length_escapeRegExpPattern (inClass escaped : Bool) (pattern : JsString) :
    (escapeRegExpPattern inClass escaped pattern).length = pattern.length := by
  fun_induction escapeRegExpPattern inClass escaped pattern <;> simp_all

/-! ### The range -/

/-- What a pattern is an argument of: a literal, or a template with the length of its text. -/
inductive PatternNode
  | regexLiteral
  | stringLiteral (literal : StringLiteral)
  | templateLiteral (length : ℕ)
  | other

/-- Without a value where it throws. Positions in the text of the regular expression begin with a slash, those in the
literal with a quote. -/
def getRegexpRange (node : PatternNode) (regexpNode : Visit) : Option (ℕ × ℕ) :=
  let start := regexpNode.start
  let finish := regexpNode.start + regexpNode.node.raw.length
  match node with
  | .regexLiteral => some (start, finish)
  | .stringLiteral literal =>
    let nodeRange := (0, literal.raw.length)
    if literal.value = [] then some (0, 2)
    else do
      let tokens ← tokenizeString literal.body
      if start = finish then
        if start - 1 < tokens.length then
          let token ← tokens[start - 1]?
          return (token.range.1 + 1, token.range.1 + 1)
        else
          let token ← tokens.getLast?
          return (token.range.2 + 1, token.range.2 + 1)
      else
        match tokens[start - 1]?, tokens[min (finish - 2) (tokens.length - 1)]? with
        | some startToken, some endToken => return (startToken.range.1 + 1, endToken.range.2 + 1)
        | _, _ => return nodeRange
  | .templateLiteral length => some (0, length)
  | .other => none

/-! ### Elements, tokens and characters of the pattern -/

section Specification

variable (literal : StringLiteral)

/-- Where an element begins in the literal, behind the quote. -/
def textStart (elements : List Element) (i : ℕ) : ℕ := 1 + (bodyOf (elements.take i)).length

/-- For each unit of the value, the element that has it. -/
def unitOwners (elements : List Element) : List ℕ :=
  elements.zipIdx.flatMap fun entry => List.replicate entry.1.value.length entry.2

/-- For each character of the pattern as it is written, the element that denotes it. -/
def denotedBy : List ℕ :=
  ((escapeRegExpPattern false false literal.value).zip (unitOwners literal.elements)).flatMap fun entry =>
    List.replicate entry.1.length entry.2

/-- A slash has two tokens, a line continuation has none. -/
def tokenCount (element : Element) : ℕ :=
  if element = .character 47 then 2 else if element.value = [] then 0 else 1

/-- For each token, the first and the last element that it is read from, where the elements begin with number `i`. An
octal escape from 4 on takes a third digit along, and a separator that continues a line is a token. -/
def readFrom : ℕ → List Element → List (ℕ × ℕ)
  | _, [] => []
  | i, .octal [a, _] :: .character c :: rest =>
    if Element.maxDigits a = 2 ∧ isOctalDigit (some c) = true then (i, i + 1) :: readFrom (i + 2) rest
    else (i, i) :: readFrom (i + 1) (.character c :: rest)
  | i, .lineContinuation [unit] :: rest =>
    if unit = lineSeparator ∨ unit = paragraphSeparator then (i, i) :: readFrom (i + 1) rest
    else readFrom (i + 1) rest
  | i, element :: rest => List.replicate (tokenCount element) (i, i) ++ readFrom (i + 1) rest

/-- The range begins with the element of the first character of a node and ends with the element of the last one. For
a node without characters, it is between the elements of the characters around it. -/
def ExactRange (start finish : ℕ) (range : ℕ × ℕ) : Prop :=
  if start < finish then
    (∀ i ∈ (denotedBy literal)[start - 1]?, range.1 = textStart literal.elements i) ∧
      ∀ i ∈ (denotedBy literal)[finish - 2]?, range.2 = textStart literal.elements (i + 1)
  else
    (∀ i ∈ (denotedBy literal).take (start - 1), textStart literal.elements (i + 1) ≤ range.1) ∧
      ∀ i ∈ (denotedBy literal).drop (start - 1), range.2 ≤ textStart literal.elements i

/-- The token with the index of a character is read from the element that denotes the character. -/
def Aligned (start finish : ℕ) : Prop :=
  literal.value = [] ∨
  let tokens := readFrom 0 literal.elements
  if start < finish then
    (∃ token ∈ tokens[start - 1]?, (denotedBy literal)[start - 1]? = some token.1) ∧
      ∃ token ∈ tokens[min (finish - 2) (tokens.length - 1)]?, (denotedBy literal)[finish - 2]? = some token.2
  else
    (∃ token ∈ tokens[start - 1]?, (∀ i ∈ (denotedBy literal).take (start - 1), i < token.1) ∧
      ∀ i ∈ (denotedBy literal).drop (start - 1), token.1 ≤ i) ∨
    tokens.length < start ∧ (denotedBy literal).length < start

end Specification

/-! ### Positions -/

section Positions

variable {quote i k : ℕ} {elements : List Element}

theorem textStart_lt_succ (h : i < elements.length) : textStart elements i < textStart elements (i + 1) := by
  have hpos := elements[i].length_text_pos
  have htake : elements.take (i + 1) = elements.take i ++ [elements[i]] := (List.take_append_getElem h).symm
  rw [textStart, textStart, htake, bodyOf, bodyOf, List.flatMap_append, List.length_append, List.flatMap_singleton]
  omega

theorem textStart_lt (h : i < k) (hk : k ≤ elements.length) : textStart elements i < textStart elements k := by
  induction k, h using Nat.le_induction with
  | base => exact textStart_lt_succ hk
  | succ k h ih => exact (ih (Nat.le_of_succ_le hk)).trans (textStart_lt_succ hk)

theorem textStart_le_iff (hi : i ≤ elements.length) (hk : k ≤ elements.length) :
    textStart elements i ≤ textStart elements k ↔ i ≤ k := by
  constructor
  · intro h
    by_contra hlt
    have := textStart_lt (Nat.lt_of_not_le hlt) hi
    omega
  · intro h
    rcases Nat.lt_or_eq_of_le h with hlt | rfl
    · exact (textStart_lt hlt hk).le
    · exact Nat.le_refl _

theorem textStart_inj (hi : i ≤ elements.length) (hk : k ≤ elements.length)
    (h : textStart elements i = textStart elements k) : i = k :=
  Nat.le_antisymm ((textStart_le_iff hi hk).mp h.le) ((textStart_le_iff hk hi).mp h.ge)

theorem textStart_append (before rest : List Element) (k : ℕ) :
    textStart (before ++ rest) (before.length + k) = 1 + (bodyOf before).length + (bodyOf (rest.take k)).length := by
  rw [textStart, List.take_length_add_append, bodyOf, List.flatMap_append, List.length_append, Nat.add_assoc]
  rfl

/-- The range of a token is that of the elements that it is read from, without the quote. -/
def rangeOf (elements : List Element) (token : ℕ × ℕ) : ℕ × ℕ :=
  (textStart elements token.1 - 1, textStart elements (token.2 + 1) - 1)

theorem rangeOf_append (before first rest : List Element) (hfirst : first.length = k + 1) :
    rangeOf (before ++ (first ++ rest)) (before.length, before.length + k) =
      ((bodyOf before).length, (bodyOf before).length + (bodyOf first).length) := by
  have hstart := textStart_append before (first ++ rest) 0
  have hend := textStart_append before (first ++ rest) (k + 1)
  rw [Nat.add_zero, List.take_zero] at hstart
  rw [← hfirst, List.take_left, hfirst, ← Nat.add_assoc] at hend
  rw [rangeOf, hstart, hend]
  exact Prod.ext (by simp [bodyOf]) (by dsimp only; omega)

theorem bodyOf_append (before rest : List Element) : bodyOf (before ++ rest) = bodyOf before ++ bodyOf rest :=
  List.flatMap_append

theorem eq_character_of_text {element : Element} (h : element.text = [47]) : element = .character 47 := by
  cases element with
  | character c =>
    rw [Element.text, Utf16.encode] at h
    split_ifs at h
    · rw [(List.cons.inj h).1]
    · cases (List.cons.inj h).2
  | escape | octal | hex | unicode | codePoint | lineContinuation => exact absurd (List.cons.inj h).1 (by decide)

theorem length_bodyOf_concat (before : List Element) (element : Element) :
    (bodyOf (before ++ [element])).length = (bodyOf before).length + element.text.length := by
  rw [bodyOf_append, List.length_append, bodyOf_cons]
  simp [bodyOf]

theorem range_tokenAt {pos : ℕ} {before : List Element} (element : Element) (rest : List Element) (hpos : pos = (bodyOf before).length) :
    (tokenAt pos element).range = rangeOf (before ++ ([element] ++ rest)) (before.length, before.length) := by
  rw [tokenAt, hpos]
  have : rangeOf _ (before.length, before.length + 0) = _ := rangeOf_append before [element] rest rfl
  simpa [bodyOf] using this.symm

/-- The tokens of the first elements, with what is known of the tokens of the others. -/
theorem map_range_append {s : JsString} {pos : ℕ} {before rest : List Element} {others : List StringLiteralToken}
    (first : List Element) (tokens : List StringLiteralToken) (mine : List (ℕ × ℕ)) {theirs : List (ℕ × ℕ)}
    (hmine : tokens.map (·.range) = mine.map (rangeOf (before ++ (first ++ rest))))
    (h : s.drop pos = bodyOf (first ++ rest)) (hpos : pos = (bodyOf before).length)
    (hrest : ∀ last, s.drop last = bodyOf rest → last = (bodyOf (before ++ first)).length →
      others.map (·.range) = theirs.map (rangeOf ((before ++ first) ++ rest))) :
    (tokens ++ others).map (·.range) = (mine ++ theirs).map (rangeOf (before ++ (first ++ rest))) := by
  rw [bodyOf_append] at h
  have hlast : pos + (bodyOf first).length = (bodyOf (before ++ first)).length := by
    rw [bodyOf_append, List.length_append, hpos]
  rw [List.map_append, List.map_append, hmine, hrest _ (drop_after h) hlast, List.append_assoc]

theorem map_range_tokensAt {s : JsString} {pos : ℕ} {before rest : List Element} {element : Element}
    (h : s.drop pos = bodyOf (element :: rest)) (hpos : pos = (bodyOf before).length) :
    ((tokensAt pos element).flatMap (double s)).map (·.range) =
      (List.replicate (tokenCount element) (before.length, before.length)).map
        (rangeOf (before ++ ([element] ++ rest))) := by
  have hrange : (tokenAt pos element).range = rangeOf (before ++ ([element] ++ rest)) (before.length, before.length) :=
    range_tokenAt element rest hpos
  unfold tokensAt tokenCount
  by_cases hslash : element = .character 47
  · subst hslash
    have hvalue : (Element.character 47).value ≠ [] := by decide
    rw [if_neg hvalue, if_pos rfl, List.flatMap_singleton, double_tokenAt h]
    simp [Element.text, Utf16.encode, hrange, List.replicate_succ]
  · rw [if_neg hslash]
    by_cases hvalue : element.value = []
    · simp [hvalue]
    · rw [if_neg hvalue, if_neg hvalue, List.flatMap_singleton, double_tokenAt h,
        if_neg (mt eq_character_of_text hslash)]
      simp [hrange]

theorem map_range_readElements {s : JsString} {pos : ℕ} (before : List Element) (hwf : WellFormed quote elements)
    (h : s.drop pos = bodyOf elements) (hpos : pos = (bodyOf before).length) :
    ((readElements pos elements).flatMap (double s)).map (·.range) =
      (readFrom before.length elements).map (rangeOf (before ++ elements)) := by
  fun_induction readElements pos elements generalizing before with
  | case1 pos => rfl
  | case2 pos a b c rest hthird ih =>
    obtain ⟨hlow, hhigh⟩ := isOctalDigit_iff.mp hthird.2
    have hbody : bodyOf [.octal [a, b], .character c] = [92, a, b, c] := by
      simp [bodyOf, Element.text, Utf16.encode_of_lt (show c < 0x10000 by omega)]
    have hdouble : double s ⟨[numeral 8 [a, b, c]], (pos, pos + 4)⟩ = [⟨[numeral 8 [a, b, c]], (pos, pos + 4)⟩] :=
      double_of_ne (h.trans (bodyOf_append [.octal [a, b], .character c] rest)) (by rw [hbody]; rfl) (by rw [hbody]; simp)
    rw [readFrom, if_pos hthird, List.flatMap_cons, hdouble]
    refine map_range_append [.octal [a, b], .character c] _ [(before.length, before.length + 1)] ?_ h hpos
      fun last hdrop hlast => ?_
    · rw [List.map_singleton, List.map_singleton, rangeOf_append _ _ _ rfl, hbody, hpos]
      rfl
    · have hfour : last = pos + 4 := by
        rw [hlast, bodyOf_append, List.length_append, hbody, hpos]
        rfl
      have := ih (before ++ [.octal [a, b], .character c]) hwf.2.2.2.2 (hfour ▸ hdrop) (hfour ▸ hlast)
      simpa using this
  | case3 pos a b c rest hthird ih =>
    have hdouble : double s (tokenAt pos (.octal [a, b])) = [tokenAt pos (.octal [a, b])] := by
      rw [double_tokenAt h]
      rfl
    rw [readFrom, if_neg hthird, List.flatMap_cons, hdouble]
    refine map_range_append [.octal [a, b]] _ [(before.length, before.length)] ?_ h hpos fun last hdrop hlast => ?_
    · rw [List.map_singleton, List.map_singleton, range_tokenAt _ _ hpos]
    · have hthree : last = pos + 3 := by rw [hlast, length_bodyOf_concat, ← hpos]; rfl
      have hrest := ih (before ++ [.octal [a, b]]) hwf.2.2 (hthree ▸ hdrop) (hthree ▸ hlast)
      rw [List.length_append] at hrest
      exact hrest
  | case4 pos unit rest hunit ih =>
    have hdouble : double s ⟨[unit], (pos, pos + 2)⟩ = [⟨[unit], (pos, pos + 2)⟩] :=
      double_of_ne (show s.drop pos = [92, unit] ++ bodyOf rest from h) rfl (by simp)
    rw [readFrom, if_pos hunit, List.flatMap_cons, hdouble]
    refine map_range_append [.lineContinuation [unit]] _ [(before.length, before.length)] ?_ h hpos fun last hdrop hlast => ?_
    · exact congrArg (fun range => [range]) (range_tokenAt (.lineContinuation [unit]) rest hpos)
    · have htwo : last = pos + 2 := by rw [hlast, length_bodyOf_concat, ← hpos]; rfl
      have hrest := ih (before ++ [.lineContinuation [unit]]) hwf.2.2 (htwo ▸ hdrop) (htwo ▸ hlast)
      rw [List.length_append] at hrest
      exact hrest
  | case5 pos unit rest hunit ih =>
    rw [readFrom, if_neg hunit]
    refine map_range_append [.lineContinuation [unit]] [] [] rfl h hpos fun last hdrop hlast => ?_
    have htwo : last = pos + 2 := by rw [hlast, length_bodyOf_concat, ← hpos]; rfl
    have hrest := ih (before ++ [.lineContinuation [unit]]) hwf.2.2 (htwo ▸ hdrop) (htwo ▸ hlast)
    rw [List.length_append] at hrest
    exact hrest
  | case6 pos element rest hoctal hseparator ih =>
    rw [readFrom, List.flatMap_append]
    · refine map_range_append [element] _ _ ?_ h hpos fun last hdrop hlast => ?_
      · exact map_range_tokensAt h hpos
      · have hlength : last = pos + element.text.length := by rw [hlast, length_bodyOf_concat, ← hpos]
        have hrest := ih (before ++ [element]) hwf.2.2 (hlength ▸ hdrop) (hlength ▸ hlast)
        rw [List.length_append] at hrest
        exact hrest
    · exact hoctal
    · exact hseparator

theorem readFrom_bounds {token : ℕ × ℕ} (h : token ∈ readFrom i elements) :
    i ≤ token.1 ∧ token.1 ≤ token.2 ∧ token.2 < i + elements.length := by
  fun_induction readFrom i elements with
  | case1 i => cases h
  | case2 i a b c rest hthird ih =>
    rw [List.length_cons, List.length_cons]
    rcases List.mem_cons.mp h with rfl | h
    · dsimp only
      omega
    · have := ih h
      omega
  | case3 i a b c rest hthird ih =>
    simp only [List.length_cons] at ih ⊢
    rcases List.mem_cons.mp h with rfl | h
    · dsimp only
      omega
    · have := ih h
      omega
  | case4 i unit rest hunit ih =>
    rw [List.length_cons]
    rcases List.mem_cons.mp h with rfl | h
    · dsimp only
      omega
    · have := ih h
      omega
  | case5 i unit rest hunit ih =>
    rw [List.length_cons]
    have := ih h
    omega
  | case6 i element rest hoctal hseparator ih =>
    rw [List.length_cons]
    rcases List.mem_append.mp h with h | h
    · obtain rfl := List.eq_of_mem_replicate h
      dsimp only
      omega
    · have := ih h
      omega

theorem exists_token {element : Element} (hk : elements[k]? = some element) (hvalue : element.value ≠ []) :
    ∃ token ∈ readFrom i elements, i + k ≤ token.2 := by
  fun_induction readFrom i elements generalizing k with
  | case1 i => simp at hk
  | case2 i a b c rest hthird ih =>
    rcases k with _ | _ | k
    · exact ⟨_, List.mem_cons_self, by dsimp only; omega⟩
    · exact ⟨_, List.mem_cons_self, by dsimp only; omega⟩
    · obtain ⟨token, hmem, hle⟩ := ih hk
      exact ⟨token, List.mem_cons_of_mem _ hmem, by omega⟩
  | case3 i a b c rest hthird ih =>
    rcases k with _ | k
    · exact ⟨_, List.mem_cons_self, by dsimp only; omega⟩
    · obtain ⟨token, hmem, hle⟩ := ih hk
      exact ⟨token, List.mem_cons_of_mem _ hmem, by omega⟩
  | case4 i unit rest hunit ih =>
    rcases k with _ | k
    · exact ⟨_, List.mem_cons_self, by dsimp only; omega⟩
    · obtain ⟨token, hmem, hle⟩ := ih hk
      exact ⟨token, List.mem_cons_of_mem _ hmem, by omega⟩
  | case5 i unit rest hunit ih =>
    rcases k with _ | k
    · obtain rfl := Option.some.inj hk
      exact absurd rfl hvalue
    · obtain ⟨token, hmem, hle⟩ := ih hk
      exact ⟨token, hmem, by omega⟩
  | case6 i first rest hoctal hseparator ih =>
    rcases k with _ | k
    · obtain rfl := Option.some.inj hk
      have hcount : tokenCount first ≠ 0 := by
        unfold tokenCount
        split_ifs <;> decide
      exact ⟨_, List.mem_append_left _ (List.mem_replicate.mpr ⟨hcount, rfl⟩), by dsimp only; omega⟩
    · obtain ⟨token, hmem, hle⟩ := ih hk
      exact ⟨token, List.mem_append_right _ hmem, by omega⟩

theorem readFrom_sorted : (readFrom i elements).Pairwise fun token next => token.2 ≤ next.2 := by
  fun_induction readFrom i elements with
  | case1 i => exact List.Pairwise.nil
  | case2 i a b c rest hthird ih =>
    refine List.pairwise_cons.mpr ⟨fun token htoken => ?_, ih⟩
    have := readFrom_bounds htoken
    dsimp only
    omega
  | case3 i a b c rest hthird ih =>
    refine List.pairwise_cons.mpr ⟨fun token htoken => ?_, ih⟩
    have := readFrom_bounds htoken
    dsimp only
    omega
  | case4 i unit rest hunit ih =>
    refine List.pairwise_cons.mpr ⟨fun token htoken => ?_, ih⟩
    have := readFrom_bounds htoken
    dsimp only
    omega
  | case5 i unit rest hunit ih => exact ih
  | case6 i element rest hoctal hseparator ih =>
    refine List.pairwise_append.mpr ⟨List.pairwise_replicate.mpr (.inr (Nat.le_refl _)), ih, ?_⟩
    intro token htoken next hnext
    obtain rfl := List.eq_of_mem_replicate htoken
    have := readFrom_bounds hnext
    dsimp only
    omega

/-! The characters of the pattern -/

theorem length_unitOwners (elements : List Element) (n : ℕ) :
    ((elements.zipIdx n).flatMap fun entry => List.replicate entry.1.value.length entry.2).length =
      (valueOf elements).length := by
  induction elements generalizing n with
  | nil => rfl
  | cons element rest ih =>
    rw [List.zipIdx_cons, List.flatMap_cons, List.length_append, List.length_replicate, ih, valueOf_cons,
      List.length_append]

theorem length_flatMap_zip {chunks : List JsString} {owners : List ℕ} (h : chunks.length = owners.length) :
    ((chunks.zip owners).flatMap fun entry => List.replicate entry.1.length entry.2).length = chunks.flatten.length := by
  induction chunks generalizing owners with
  | nil => rfl
  | cons chunk chunks ih =>
    rcases owners with _ | ⟨owner, owners⟩
    · cases h
    rw [List.zip_cons_cons, List.flatMap_cons, List.length_append, List.length_replicate, ih (by simpa using h),
      List.flatten_cons, List.length_append]

variable {literal : StringLiteral}

theorem length_denotedBy (h : literal.value ≠ []) : (denotedBy literal).length = (source literal.value).length := by
  rw [source, if_neg h]
  refine length_flatMap_zip ?_
  rw [length_escapeRegExpPattern, unitOwners, length_unitOwners]
  rfl

theorem denotedBy_value (h : i ∈ denotedBy literal) :
    ∃ element, literal.elements[i]? = some element ∧ element.value ≠ [] := by
  obtain ⟨entry, hentry, hi⟩ := List.mem_flatMap.mp h
  obtain rfl := List.eq_of_mem_replicate hi
  obtain ⟨owner, howner, hmem⟩ := List.mem_flatMap.mp (List.of_mem_zip hentry).2
  obtain ⟨hpos, heq⟩ := List.mem_replicate.mp hmem
  refine ⟨owner.1, ?_, fun hnil => hpos (by rw [hnil]; rfl)⟩
  rw [heq]
  exact List.mk_mem_zipIdx_iff_getElem?.mp howner

theorem denotedBy_lt (h : i ∈ denotedBy literal) : i < literal.elements.length := by
  obtain ⟨element, helement, -⟩ := denotedBy_value h
  exact (List.getElem?_eq_some_iff.mp helement).1

theorem readFrom_ne_nil (h : literal.value ≠ []) : readFrom 0 literal.elements ≠ [] := by
  obtain ⟨unit, hunit⟩ := List.exists_mem_of_ne_nil _ h
  obtain ⟨element, helement, hmem⟩ := List.mem_flatMap.mp hunit
  obtain ⟨k, hk⟩ := List.mem_iff_getElem?.mp helement
  obtain ⟨token, htoken, -⟩ := exists_token (i := 0) hk (List.ne_nil_of_mem hmem)
  exact List.ne_nil_of_mem htoken

theorem exists_last (h : i ∈ denotedBy literal) : ∃ last ∈ (readFrom 0 literal.elements).getLast?, i ≤ last.2 := by
  obtain ⟨element, helement, hvalue⟩ := denotedBy_value h
  obtain ⟨token, htoken, hle⟩ := exists_token (i := 0) helement hvalue
  have hsorted : (readFrom 0 literal.elements).Pairwise _ := readFrom_sorted
  rcases List.eq_nil_or_concat (readFrom 0 literal.elements) with hnil | ⟨init, last, hlast⟩
  · rw [hnil] at htoken
    cases htoken
  · rw [hlast, List.concat_eq_append] at htoken hsorted
    rw [hlast]
    refine ⟨last, by simp, ?_⟩
    rcases List.mem_append.mp htoken with hinit | htoken
    · have := (List.pairwise_append.mp hsorted).2.2 token hinit last (by simp)
      omega
    · obtain rfl := List.mem_singleton.mp htoken
      omega

end Positions

/-! ### Nodes of the pattern -/

theorem visits_bounds {visit : Visit} (node : Node) (parentType : String) (start : ℕ)
    (h : visit ∈ visits parentType start node) :
    start ≤ visit.start ∧ visit.start + visit.node.raw.length ≤ start + node.raw.length := by
  obtain ⟨before, after, hraw, hstart⟩ := Node.visits_standsIn node parentType start h
  have hlength := congrArg List.length hraw
  simp only [List.length_append] at hlength
  omega

section Nodes

variable {literal : StringLiteral} {pattern : Node} {regexpNode : Visit}

theorem exists_tokens (literal : StringLiteral) : ∃ tokens, tokenizeString literal.body = some tokens ∧
    tokens.map (·.range) = (readFrom 0 literal.elements).map (rangeOf literal.elements) :=
  ⟨_, tokenizeString_eq literal, map_range_readElements [] literal.wellFormed rfl rfl⟩

theorem textStart_pos (elements : List Element) (i : ℕ) : textStart elements i - 1 + 1 = textStart elements i := by
  unfold textStart
  omega

theorem getRegexpRange_of_lt (hvalue : literal.value ≠ []) {finish : ℕ}
    (hfinish : finish = regexpNode.start + regexpNode.node.raw.length) (hlt : regexpNode.start < finish) :
    getRegexpRange (.stringLiteral literal) regexpNode = some
      (match (readFrom 0 literal.elements)[regexpNode.start - 1]?,
          (readFrom 0 literal.elements)[min (finish - 2) ((readFrom 0 literal.elements).length - 1)]? with
        | some first, some last => (textStart literal.elements first.1, textStart literal.elements (last.2 + 1))
        | _, _ => (0, literal.raw.length)) := by
  obtain ⟨tokens, htokens, hranges⟩ := exists_tokens literal
  have hlength : tokens.length = (readFrom 0 literal.elements).length := by simpa using congrArg List.length hranges
  have hget : ∀ i : ℕ, tokens[i]?.map (·.range) = ((readFrom 0 literal.elements)[i]?).map (rangeOf literal.elements) :=
    fun i => by rw [← List.getElem?_map, hranges, List.getElem?_map]
  have hfirst := hget (regexpNode.start - 1)
  have hlast := hget (min (finish - 2) ((readFrom 0 literal.elements).length - 1))
  unfold getRegexpRange
  simp only [if_neg hvalue, htokens, Option.bind_eq_bind, Option.bind_some, ← hfinish, if_neg hlt.ne, hlength]
  rcases hfrom : (readFrom 0 literal.elements)[regexpNode.start - 1]? with _ | first
  · rw [hfrom, Option.map_none, Option.map_eq_none_iff] at hfirst
    rw [hfirst]
    rfl
  · rw [hfrom] at hfirst
    obtain ⟨firstToken, hfirst, hfirstRange⟩ := Option.map_eq_some_iff.mp hfirst
    rw [hfirst]
    rcases hto : (readFrom 0 literal.elements)[min (finish - 2) ((readFrom 0 literal.elements).length - 1)]? with _ | last
    · rw [hto, Option.map_none, Option.map_eq_none_iff] at hlast
      rw [hlast]
      rfl
    · rw [hto] at hlast
      obtain ⟨lastToken, hlast, hlastRange⟩ := Option.map_eq_some_iff.mp hlast
      rw [hlast]
      dsimp only
      rw [hfirstRange, hlastRange, rangeOf, rangeOf, textStart_pos, textStart_pos]
      rfl

theorem getRegexpRange_of_eq (hvalue : literal.value ≠ []) (hempty : regexpNode.node.raw = []) :
    getRegexpRange (.stringLiteral literal) regexpNode =
      if regexpNode.start - 1 < (readFrom 0 literal.elements).length then
        ((readFrom 0 literal.elements)[regexpNode.start - 1]?).map fun token =>
          (textStart literal.elements token.1, textStart literal.elements token.1)
      else ((readFrom 0 literal.elements).getLast?).map fun token =>
        (textStart literal.elements (token.2 + 1), textStart literal.elements (token.2 + 1)) := by
  obtain ⟨tokens, htokens, hranges⟩ := exists_tokens literal
  have hlength : tokens.length = (readFrom 0 literal.elements).length := by simpa using congrArg List.length hranges
  have hget : tokens[regexpNode.start - 1]?.map (·.range) =
      ((readFrom 0 literal.elements)[regexpNode.start - 1]?).map (rangeOf literal.elements) := by
    rw [← List.getElem?_map, hranges, List.getElem?_map]
  have hgetLast : tokens.getLast?.map (·.range) =
      ((readFrom 0 literal.elements).getLast?).map (rangeOf literal.elements) := by
    rw [← List.getLast?_map, hranges, List.getLast?_map]
  unfold getRegexpRange
  simp only [if_neg hvalue, htokens, Option.bind_eq_bind, Option.bind_some, hempty, List.length_nil, Nat.add_zero,
    if_true, hlength]
  split_ifs with hlt
  · have := congrArg (Option.map fun range : ℕ × ℕ => (range.1 + 1, range.1 + 1)) hget
    simpa [Option.map_eq_bind, Option.bind_assoc, Function.comp_def, rangeOf, textStart_pos] using this
  · have := congrArg (Option.map fun range : ℕ × ℕ => (range.2 + 1, range.2 + 1)) hgetLast
    simpa [Option.map_eq_bind, Option.bind_assoc, Function.comp_def, rangeOf, textStart_pos] using this

theorem exactRange_of_lt {start finish i k : ℕ} {range : ℕ × ℕ} (h : start < finish)
    (hi : (denotedBy literal)[start - 1]? = some i) (hk : (denotedBy literal)[finish - 2]? = some k) :
    ExactRange literal start finish range ↔
      range.1 = textStart literal.elements i ∧ range.2 = textStart literal.elements (k + 1) := by
  simp only [ExactRange, if_pos h, hi, hk, Option.mem_some_iff, forall_eq']

theorem aligned_of_lt {start finish : ℕ} (hvalue : literal.value ≠ []) (h : start < finish) :
    Aligned literal start finish ↔
      (∃ token ∈ (readFrom 0 literal.elements)[start - 1]?, (denotedBy literal)[start - 1]? = some token.1) ∧
        ∃ token ∈ (readFrom 0 literal.elements)[min (finish - 2) ((readFrom 0 literal.elements).length - 1)]?,
          (denotedBy literal)[finish - 2]? = some token.2 := by
  simp only [Aligned, hvalue, false_or, if_pos h]

/-- A node with characters. -/
theorem getRegexpRange_iff_of_lt (hvalue : literal.value ≠ []) {finish : ℕ}
    (hfinish : finish = regexpNode.start + regexpNode.node.raw.length) (hlt : regexpNode.start < finish)
    (hstart : 1 ≤ regexpNode.start) (hend : finish ≤ (denotedBy literal).length + 1) :
    (∃ range, getRegexpRange (.stringLiteral literal) regexpNode = some range ∧
      ExactRange literal regexpNode.start finish range) ↔ Aligned literal regexpNode.start finish := by
  have hx : regexpNode.start - 1 < (denotedBy literal).length := by omega
  have hy : finish - 2 < (denotedBy literal).length := by omega
  have hi := List.getElem?_eq_getElem hx
  have hk := List.getElem?_eq_getElem hy
  have hilt := denotedBy_lt (List.getElem_mem hx)
  have hklt := denotedBy_lt (List.getElem_mem hy)
  generalize (denotedBy literal)[regexpNode.start - 1] = i at hi hilt
  generalize (denotedBy literal)[finish - 2] = k at hk hklt
  rw [getRegexpRange_of_lt hvalue hfinish hlt, aligned_of_lt hvalue hlt, hi, hk]
  simp only [Option.some.injEq, exists_eq_left', exactRange_of_lt hlt hi hk]
  have hzero : (0 : ℕ) ≠ textStart literal.elements i := by
    unfold textStart
    omega
  rcases hfrom : (readFrom 0 literal.elements)[regexpNode.start - 1]? with _ | first
  · simp [hzero]
  · rcases hto : (readFrom 0 literal.elements)[min (finish - 2) ((readFrom 0 literal.elements).length - 1)]? with _ | last
    · simp [hzero]
    · have hfirst := readFrom_bounds (List.mem_of_getElem? hfrom)
      have hlast := readFrom_bounds (List.mem_of_getElem? hto)
      simp only [Option.mem_some_iff, exists_eq_left']
      refine and_congr ⟨fun h => (textStart_inj (by omega) (by omega) h).symm, fun h => by rw [h]⟩
        ⟨fun h => ?_, fun h => by rw [h]⟩
      have := textStart_inj (show last.2 + 1 ≤ literal.elements.length by omega) (by omega) h
      omega

/-- A node without characters. -/
theorem getRegexpRange_iff_of_eq (hvalue : literal.value ≠ []) (hempty : regexpNode.node.raw = [])
    (hstart : 1 ≤ regexpNode.start) :
    (∃ range, getRegexpRange (.stringLiteral literal) regexpNode = some range ∧
      ExactRange literal regexpNode.start regexpNode.start range) ↔ Aligned literal regexpNode.start regexpNode.start := by
  rw [getRegexpRange_of_eq hvalue hempty]
  simp only [ExactRange, Aligned, hvalue, false_or, Nat.lt_irrefl, if_false]
  split_ifs with hlt
  · have hfrom := List.getElem?_eq_getElem hlt
    have hbounds := readFrom_bounds (List.getElem_mem hlt)
    generalize (readFrom 0 literal.elements)[regexpNode.start - 1] = token at hfrom hbounds
    have hno : ¬ ((readFrom 0 literal.elements).length < regexpNode.start ∧
        (denotedBy literal).length < regexpNode.start) := by omega
    simp only [hfrom, Option.map_some, Option.some.injEq, exists_eq_left', Option.mem_some_iff, hno, or_false]
    refine and_congr (forall₂_congr fun i hi => ?_) (forall₂_congr fun i hi => ?_)
    · have := denotedBy_lt (List.mem_of_mem_take hi)
      rw [textStart_le_iff (by omega) (by omega), Nat.succ_le_iff]
    · have := denotedBy_lt (List.mem_of_mem_drop hi)
      rw [textStart_le_iff (by omega) (by omega)]
  · have hfrom : (readFrom 0 literal.elements)[regexpNode.start - 1]? = none := List.getElem?_eq_none (by omega)
    obtain ⟨last, hlast⟩ := Option.ne_none_iff_exists'.mp (mt List.getLast?_eq_none_iff.mp (readFrom_ne_nil hvalue))
    have hbounds := readFrom_bounds (List.mem_of_getLast? hlast)
    -- all characters are denoted by elements up to that of the last token
    have hle : ∀ i ∈ denotedBy literal, i ≤ last.2 := fun i hi => by
      obtain ⟨last', hlast', hi⟩ := exists_last hi
      obtain rfl := Option.some.inj (hlast.symm.trans hlast')
      exact hi
    have hlength : (readFrom 0 literal.elements).length < regexpNode.start := by omega
    simp only [hfrom, hlast, Option.map_some, Option.some.injEq, exists_eq_left', Option.mem_def, reduceCtorEq, false_and,
      exists_false, false_or, hlength, true_and]
    constructor
    · rintro ⟨-, hdrop⟩
      by_contra hlong
      have hx : regexpNode.start - 1 < (denotedBy literal).length := by omega
      have hmem : (denotedBy literal)[regexpNode.start - 1] ∈ (denotedBy literal).drop (regexpNode.start - 1) :=
        List.mem_drop_iff_getElem.mpr ⟨0, by omega, rfl⟩
      have hi := hle _ (List.mem_of_mem_drop hmem)
      have := (textStart_le_iff (by omega) (by omega)).mp (hdrop _ hmem)
      omega
    · intro hlong
      refine ⟨fun i hi => (textStart_le_iff ?_ (by omega)).mpr (Nat.succ_le_succ (hle i (List.mem_of_mem_take hi))), ?_⟩
      · exact denotedBy_lt (List.mem_of_mem_take hi)
      · rw [List.drop_eq_nil_of_le (by omega)]
        exact nofun

theorem getRegexpRange_iff (hparsed : pattern.raw = source literal.value)
    (hnode : regexpNode ∈ visits "RegExpLiteral" 1 pattern) :
    (∃ range, getRegexpRange (.stringLiteral literal) regexpNode = some range ∧
      ExactRange literal regexpNode.start (regexpNode.start + regexpNode.node.raw.length) range) ↔
      Aligned literal regexpNode.start (regexpNode.start + regexpNode.node.raw.length) := by
  obtain ⟨hstart, hend⟩ := visits_bounds pattern _ _ hnode
  by_cases hvalue : literal.value = []
  · have hdenoted : denotedBy literal = [] := by simp [denotedBy, hvalue, escapeRegExpPattern]
    refine iff_of_true ⟨(0, 2), by simp [getRegexpRange, hvalue], ?_⟩ (.inl hvalue)
    simp [ExactRange, hdenoted]
  · rw [hparsed, ← length_denotedBy hvalue] at hend
    rcases Nat.eq_zero_or_pos regexpNode.node.raw.length with hzero | hpos
    · rw [hzero, Nat.add_zero]
      exact getRegexpRange_iff_of_eq hvalue (List.length_eq_zero_iff.mp hzero) hstart
    · exact getRegexpRange_iff_of_lt hvalue rfl (by omega) hstart (by omega)

end Nodes

/-! ### Two literals -/

theorem singleQuote_eq : 39 = 34 ∨ 39 = 39 := .inr rfl

/-- `'/s*'` -/
def slashS : StringLiteral where
  quote := 39
  elements := [.character 47, .character 115, .character 42]
  quote_eq := singleQuote_eq
  wellFormed :=
    ⟨⟨by decide, by decide⟩, fun h => absurd h (by decide), ⟨by decide, by decide⟩, fun h => absurd h (by decide),
      ⟨by decide, by decide⟩, fun h => absurd h (by decide), trivial⟩

def slashSQuantifier : Node := .Quantifier (.Character [115] 115) 0 none true [42]

def slashSPattern : Node := .Pattern [.Alternative [.Character [92, 47] 47, slashSQuantifier]]

theorem slashS_parsed : slashSPattern.raw = source slashS.value := by decide

theorem slashS_visited : ⟨slashSQuantifier, 3, "Alternative"⟩ ∈ visits "RegExpLiteral" 1 slashSPattern := by
  simp [visits, visitsJoined, slashSPattern, slashSQuantifier, Node.type, raw]

theorem getRegexpRange_iff_slashS : ∃ range,
    getRegexpRange (.stringLiteral slashS) ⟨slashSQuantifier, 3, "Alternative"⟩ = some range ∧ ExactRange slashS 3 5 range :=
  (getRegexpRange_iff slashS_parsed slashS_visited).mpr
    (.inr ⟨⟨(1, 1), by decide, by decide⟩, (2, 2), by decide, by decide⟩)

/-- `"\\/a"` -/
def escapedSlash : StringLiteral where
  quote := 34
  elements := [.escape 92, .character 47, .character 97]
  quote_eq := .inl rfl
  wellFormed :=
    ⟨⟨by decide, by decide, by decide⟩, fun h => absurd h (by decide), ⟨by decide, by decide⟩,
      fun h => absurd h (by decide), ⟨by decide, by decide⟩, fun h => absurd h (by decide), trivial⟩

theorem escapedSlash_range :
    getRegexpRange (.stringLiteral escapedSlash) ⟨.Character [97] 97, 3, "Alternative"⟩ = some (3, 4) := by
  decide

theorem escapedSlash_not_exact : ¬ ∀ (literal : StringLiteral) (pattern : Node) (regexpNode : Visit),
    pattern.raw = source literal.value → regexpNode ∈ visits "RegExpLiteral" 1 pattern →
      ∃ range, getRegexpRange (.stringLiteral literal) regexpNode = some range ∧
        ExactRange literal regexpNode.start (regexpNode.start + regexpNode.node.raw.length) range := by
  intro h
  obtain ⟨range, hrange, hexact⟩ := h escapedSlash (.Pattern [.Alternative [.Character [92, 47] 47, .Character [97] 97]])
    ⟨.Character [97] 97, 3, "Alternative"⟩ (by decide) (by simp [visits, visitsJoined, Node.type, raw])
  rw [escapedSlash_range, Option.some.injEq] at hrange
  subst hrange
  exact absurd (hexact.1 2 (by decide)) (by decide)

end SonarJavascript.Regex
