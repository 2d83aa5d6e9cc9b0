import SonarJavascript.Regex.ClassElements

/-!
# Character classes that ignore case

With the flag `i` the builder adds the range between the upper-cased ends and the one between the lower-cased ends,
where both ends have case. `lossless_iff` says for each element whether the code points that the element matches are
those of the class.
-/

namespace SonarJavascript.Regex

open OrderedTree

variable {E : Type} {R : OrderedTree ℕ (Option E)}

/-! ### Two calls, perhaps with their ends in the wrong order -/

section Calls

variable {t : R.Tree} {fromCp toCp cp : ℕ} {element : E} {e : ℕ × Option E}

theorem mem_fill_reversed (hR : R.Lawful) (hlt : toCp < fromCp) :
    e ∈ R.entries (fill R t fromCp toCp element) ↔ e = (fromCp, some element) ∨ (e ∈ R.entries t ∧ e.1 ≠ fromCp) := by
  rcases fill_cases hR t fromCp toCp element with ⟨-, hmem⟩ | ⟨gap, -, ⟨hgap, -⟩, -⟩
  · exact hmem e
  · have := isGap_iff.mp hgap
    omega

theorem owner_fill_reversed (hR : R.Lawful) (hlt : toCp < fromCp) :
    owner R (fill R t fromCp toCp element) cp =
      if fromCp ≤ cp ∧ ∀ e ∈ R.entries t, ¬ (fromCp < e.1 ∧ e.1 ≤ cp) then some element else owner R t cp := by
  rw [← owner_put hR]
  exact owner_congr hR fun e _ => by rw [mem_fill_reversed hR hlt, hR.mem_put]

/-- A key that says what holds anyway leaves the class as it is. -/
theorem contains_put_same (hR : R.Lawful) {key : ℕ} {value : Option E}
    (h : value.isSome = contains R t key) : contains R (R.put key value t) cp = contains R t cp := by
  rw [contains_eq_isSome, owner_put hR]
  split_ifs with hkey
  · rw [h, contains_eq_isSome, contains_eq_isSome, owner_eq_of_no_key hR hkey.1 hkey.2]
  · rfl

theorem contains_addRange_eq_fill (hR : R.Lawful) (hlt : toCp < fromCp) :
    contains R (addRange R t fromCp toCp element) cp = contains R (fill R t fromCp toCp element) cp := by
  -- unless the range begins there, the code point after the end belongs to what the end belongs to
  have hnext : (∀ e ∈ R.entries t, e.1 ≠ toCp + 1) → fromCp ≠ toCp + 1 →
      owner R (fill R t fromCp toCp element) (toCp + 1) = oldValue R t toCp (toCp + 1) := fun hnone hne => by
    rw [owner_fill_reversed hR hlt, if_neg (by omega), oldValue_eq_owner hR hnone]
    exact owner_eq_of_no_key hR (Nat.le_succ toCp) fun e he h => hnone e he (by omega)
  unfold addRange
  dsimp only
  cases hold : oldValue R t toCp (toCp + 1) with
  | some value =>
    have hnone : ∀ e ∈ R.entries t, e.1 ≠ toCp + 1 := fun e he hkey => by
      rw [oldValue_eq_none hR he hkey] at hold
      cases hold
    have hsome : (some value).isSome = contains R (fill R t fromCp toCp element) (toCp + 1) := by
      by_cases hfirst : fromCp = toCp + 1
      · rw [contains_eq_isSome, owner_fill_reversed hR hlt, if_pos ⟨hfirst.le, fun e _ => by omega⟩]
        rfl
      · rw [contains_eq_isSome, hnext hnone hfirst, hold]
    dsimp only
    split_ifs
    · exact contains_put_same hR hsome
    · rfl
  | none =>
    dsimp only
    split_ifs with hmax hfind
    · rw [hR.entry_find, Option.isNone_iff_eq_none, List.find?_eq_none] at hfind
      have hkey : ∀ e ∈ R.entries (fill R t fromCp toCp element), e.1 ≠ toCp + 1 := fun e he => by
        simpa using hfind e he
      have hfirst : fromCp ≠ toCp + 1 := hkey _ ((mem_fill_reversed hR hlt).mpr (Or.inl rfl))
      have hnone : ∀ e ∈ R.entries t, e.1 ≠ toCp + 1 := fun e he h =>
        hkey e ((mem_fill_reversed hR hlt).mpr (Or.inr ⟨he, by omega⟩)) h
      refine contains_put_same hR ?_
      rw [contains_eq_isSome, hnext hnone hfirst, hold]
    · rfl
    · rfl

/-- A range whose ends are in the wrong order is added from its first code point up to the next key. -/
theorem contains_addRange_reversed (hR : R.Lawful) (hlt : toCp < fromCp) :
    contains R (addRange R t fromCp toCp element) cp = true ↔
      contains R t cp = true ∨ (fromCp ≤ cp ∧ ∀ e ∈ R.entries t, ¬ (fromCp < e.1 ∧ e.1 ≤ cp)) := by
  rw [contains_addRange_eq_fill hR hlt, contains_eq_isSome, owner_fill_reversed hR hlt]
  split_ifs with h
  · exact iff_of_true rfl (Or.inr h)
  · exact (or_iff_left h).symm

variable (t fromCp element) in
theorem exists_mem_addRange_next (hR : R.Lawful) (hmax : toCp + 1 ≤ maxCodePoint) :
    ∃ value, (toCp + 1, value) ∈ R.entries (addRange R t fromCp toCp element) := by
  have hput : ∀ value, (toCp + 1, value) ∈ R.entries (R.put (toCp + 1) value (fill R t fromCp toCp element)) :=
    fun value => (hR.mem_put _ _ _ _).mpr (Or.inl rfl)
  unfold addRange
  dsimp only
  rw [if_pos hmax]
  cases oldValue R t toCp (toCp + 1) with
  | some value => exact ⟨_, hput _⟩
  | none =>
    dsimp only
    split_ifs with hfind
    · exact ⟨_, hput _⟩
    · rw [hR.entry_find, Option.isNone_iff_eq_none, ← ne_eq, Option.ne_none_iff_exists'] at hfind
      obtain ⟨⟨key, value⟩, hentry⟩ := hfind
      obtain rfl : key = toCp + 1 := by simpa using List.find?_some hentry
      exact ⟨value, List.mem_of_find?_eq_some hentry⟩

end Calls

section TwoCalls

variable {a b c d cp : ℕ} {element : E} {e : ℕ × Option E}

variable (R) in
abbrev firstCall (a b : ℕ) (element : E) : R.Tree := addRange R R.createTree a b element

theorem mem_firstCall (hR : R.Lawful) (he : e ∈ R.entries (firstCall R a b element)) :
    e = (a, some element) ∨ e.1 = b + 1 := by
  by_cases hkey : e.1 = b + 1
  · exact Or.inr hkey
  · rw [mem_addRange_of_ne hR hkey] at he
    rcases fill_cases hR R.createTree a b element with ⟨-, hmem⟩ | ⟨gap, hgap, -⟩
    · rw [hmem, hR.entries_createTree] at he
      exact Or.inl (he.resolve_right fun h => List.not_mem_nil h.1)
    · rw [hR.entries_createTree] at hgap
      cases hgap

variable (b element) in
theorem exists_mem_firstCall (hR : R.Lawful) (ha : a ≤ maxCodePoint) :
    ∃ value, (a, value) ∈ R.entries (firstCall R a b element) := by
  by_cases hkey : a = b + 1
  · rw [hkey]
    exact exists_mem_addRange_next _ _ _ hR (by omega)
  · refine ⟨some element, (mem_addRange_of_ne hR hkey).mpr ?_⟩
    rcases fill_cases hR R.createTree a b element with ⟨-, hmem⟩ | ⟨gap, hgap, -⟩
    · exact (hmem _).mpr (Or.inl rfl)
    · rw [hR.entries_createTree] at hgap
      cases hgap

theorem no_key_firstCall_iff (hR : R.Lawful) (ha : a ≤ maxCodePoint) (hcp : cp ≤ maxCodePoint) :
    (∀ e ∈ R.entries (firstCall R a b element), ¬ (c < e.1 ∧ e.1 ≤ cp)) ↔
      ¬ (c < a ∧ a ≤ cp) ∧ ¬ (c < b + 1 ∧ b + 1 ≤ cp) := by
  constructor
  · intro h
    obtain ⟨value, hvalue⟩ := exists_mem_firstCall b element hR ha
    refine ⟨h _ hvalue, fun hnext => ?_⟩
    obtain ⟨value', hvalue'⟩ := exists_mem_addRange_next R.createTree a element hR
      (hnext.2.trans hcp)
    exact h _ hvalue' hnext
  · rintro ⟨hfirst, hnext⟩ e he
    rcases mem_firstCall hR he with rfl | hkey
    · exact hfirst
    · rw [hkey]
      exact hnext

theorem contains_createTree (hR : R.Lawful) : contains R R.createTree cp = false :=
  contains_eq_false_of_no_floor hR (by simp [hR.entries_createTree])

theorem contains_firstCall (hR : R.Lawful) (hb : b ≤ maxCodePoint) (hcp : cp ≤ maxCodePoint) :
    contains R (firstCall R a b element) cp = true ↔ a ≤ cp ∧ (cp ≤ b ∨ b < a) := by
  rcases Nat.lt_or_ge b a with hlt | hle
  · rw [contains_addRange_reversed hR hlt, contains_createTree hR, hR.entries_createTree]
    simp [hlt]
  · have hgaps : (gaps R R.createTree a b).length ≤ 1 := by
      rw [length_gaps_le_one_iff hR, hR.entries_createTree]
      exact nofun
    rw [(addRange_iff hR R.createTree ⟨a, b, element, hle, hb⟩).mpr hgaps cp hcp, contains_createTree hR,
      or_iff_left (show ¬ b < a by omega)]
    simp [Range.contains]

/-- The code points of two calls with the ends `a`, `b` and `c`, `d`. Ends in the wrong order reach up to the next
key. -/
def Between (a b c d cp : ℕ) : Prop :=
  (a ≤ cp ∧ (cp ≤ b ∨ b < a)) ∨
    (c ≤ cp ∧ (cp ≤ d ∨ (d < c ∧ ¬ (c < a ∧ a ≤ cp) ∧ ¬ (c < b + 1 ∧ b + 1 ≤ cp))))

theorem contains_twoCalls (hR : R.Lawful) (ha : a ≤ maxCodePoint) (hb : b ≤ maxCodePoint) (hd : d ≤ maxCodePoint)
    (hcp : cp ≤ maxCodePoint) :
    contains R (addRange R (firstCall R a b element) c d element) cp = true ↔ Between a b c d cp := by
  unfold Between
  rcases Nat.lt_or_ge d c with hlt | hle
  · rw [contains_addRange_reversed hR hlt, contains_firstCall hR hb hcp, no_key_firstCall_iff hR ha hcp]
    refine or_congr_right (and_congr_right fun hc => ?_)
    rw [or_iff_right (show ¬ cp ≤ d by omega), and_iff_right hlt]
  · have hgaps : (gaps R (firstCall R a b element) c d).length ≤ 1 := by
      rw [length_gaps_le_one_iff hR]
      -- the only gap is the one after the first call
      have hkey : ∀ gap ∈ R.entries (firstCall R a b element), isGap c d gap = true → gap.1 = b + 1 := by
        intro gap hmem hgap
        refine (mem_firstCall hR hmem).resolve_left ?_
        rintro rfl
        cases (isGap_iff.mp hgap).2.2
      exact fun gap hmem gap' hmem' hgap hgap' => eq_of_key_eq (hR.sorted _) hmem hmem'
        ((hkey gap hmem hgap).trans (hkey gap' hmem' hgap').symm)
    rw [(addRange_iff hR _ ⟨c, d, element, hle, hd⟩).mpr hgaps cp hcp, contains_firstCall hR hb hcp]
    refine or_congr_right ?_
    show c ≤ cp ∧ cp ≤ d ↔ _
    rw [or_iff_left (show ¬ (d < c ∧ _) from fun h => by omega)]

end TwoCalls

/-! ### Case -/

/-- With the flags `u` and `v` characters are compared by their simple case foldings, else by what `toUpperCase` gives
where that is one code unit. `variants` says of a code point and another one that they are compared as the same; its
first argument is whether one of the flags is set. -/
structure CaseData extends CaseMapping where
  variants : Bool → ℕ → ℕ → Prop

def isLetter (c : ℕ) : Bool := (65 ≤ c && c ≤ 90) || (97 ≤ c && c ≤ 122)

/-- The other case of a letter of ASCII. -/
def otherCase (c : ℕ) : ℕ := if 65 ≤ c ∧ c ≤ 90 then c + 32 else if 97 ≤ c ∧ c ≤ 122 then c - 32 else c

/-- Where the ranges of `\s` and `\S` begin outside ASCII there are no letters. -/
def caselessStarts : List ℕ :=
  [0x85, 0x86, 0xA0, 0xA1, 0x1680, 0x1681, 0x2000, 0x200B, 0x2028, 0x202A, 0x202F, 0x2030, 0x205F, 0x2060, 0x3000,
    0x3001]

/-- The case mappings of Unicode, as far as ASCII is concerned. Outside ASCII only the long s and the Kelvin sign have
variants in ASCII. -/
structure CaseData.Lawful (data : CaseData) : Prop where
  upperCase_ascii : ∀ c < 128, data.upperCase c = if 97 ≤ c ∧ c ≤ 122 then c - 32 else c
  lowerCase_ascii : ∀ c < 128, data.lowerCase c = if 65 ≤ c ∧ c ≤ 90 then c + 32 else c
  caseless : ∀ c ∈ caselessStarts, data.upperCase c = c ∧ data.lowerCase c = c
  upperCase_le : ∀ c ≤ maxCodePoint, data.upperCase c ≤ maxCodePoint
  lowerCase_le : ∀ c ≤ maxCodePoint, data.lowerCase c ≤ maxCodePoint
  variants_refl : ∀ unicode c, data.variants unicode c c
  variants_symm : ∀ unicode c v, data.variants unicode c v → data.variants unicode v c
  variants_le : ∀ unicode, ∀ c ≤ maxCodePoint, ∀ v, data.variants unicode c v → v ≤ maxCodePoint
  variants_ascii : ∀ unicode, ∀ c < 128, ∀ v < 128, data.variants unicode c v ↔ v = c ∨ v = otherCase c
  variants_outside : ∀ unicode, ∀ c < 128, ∀ v ≥ 128, data.variants unicode c v ↔
    unicode = true ∧ ((c ∈ [83, 115] ∧ v = 0x17F) ∨ (c ∈ [75, 107] ∧ v = 0x212A))

def Flags.eitherUnicode (flags : Flags) : Bool := flags.unicode || flags.unicodeSets

/-- The code points that the element denotes when case is ignored: a word character is a variant of one. -/
def Matches (data : CaseData) (flags : Flags) : ClassElement → ℕ → Prop
  | .CharacterSet .word negate, cp =>
    cp ≤ lastCharacter flags ∧
      ((∃ w, EscapeKind.word.contains w = true ∧ data.variants flags.eitherUnicode w cp) ↔ negate = false)
  | element, cp => Denotes flags element cp

/-- Every variant of what the element denotes is in the class, and nothing else of ASCII. -/
structure KeepsCase (data : CaseData) (flags : Flags) (element : ClassElement) (t : R.Tree) : Prop where
  covers : ∀ cp, Matches data flags element cp → ∀ v, data.variants flags.eitherUnicode cp v → contains R t v = true
  ascii : ∀ v < 128, contains R t v = true → ∃ cp, Matches data flags element cp ∧ data.variants flags.eitherUnicode cp v

/-! ### When nothing is lost -/

/-- The builder takes the ends to their cases. -/
def Splits (data : CaseData) (flags : Flags) (min max : ℕ) : Prop :=
  data.lowerCase (data.upperCase min) ≠ data.upperCase min ∧ data.lowerCase (data.upperCase max) ≠ data.upperCase max ∧
    ((isAscii min = true ∧ isAscii max = true) ∨ flags.unicode = true)

/-- A code point between the cases of the ends. -/
def BetweenCases (data : CaseData) (min max cp : ℕ) : Prop :=
  Between (data.upperCase min) (data.upperCase max) (data.lowerCase (data.upperCase min))
    (data.lowerCase (data.upperCase max)) cp

/-- A range that is left as it is has the variants of its code points. A range of letters of ASCII is in one case, and
with `u` or `v` without the letters that have variants outside ASCII. In other ranges the variants lie between the
cases of the ends, and no other code point of ASCII does. -/
structure LosslessRange (data : CaseData) (flags : Flags) (min max : ℕ) : Prop where
  closed : ¬ Splits data flags min max → ∀ cp, min ≤ cp → cp ≤ max → ∀ v, data.variants flags.eitherUnicode cp v →
    min ≤ v ∧ v ≤ max
  sameCase : Splits data flags min max → max < 128 → (90 < min ∨ max < 97) ∧
    (flags.eitherUnicode = true → ∀ cp ∈ [75, 83, 107, 115], ¬ (min ≤ cp ∧ cp ≤ max))
  between : Splits data flags min max → 128 ≤ max →
    (∀ cp, min ≤ cp → cp ≤ max → ∀ v, data.variants flags.eitherUnicode cp v → BetweenCases data min max v) ∧
      ∀ v < 128, BetweenCases data min max v → ∃ cp, (min ≤ cp ∧ cp ≤ max) ∧ data.variants flags.eitherUnicode cp v

def Lossless (data : CaseData) (flags : Flags) : ClassElement → Prop
  | .Character value _ => LosslessRange data flags value value
  | .CharacterClassRange min max _ _ => LosslessRange data flags min max
  | .CharacterSet .digit false => True
  | .CharacterSet .space false => False
  | .CharacterSet .word false => flags.eitherUnicode = false
  | .CharacterSet _ true => flags.unicode = false
  | .Unvisited contents => ∀ cp, ¬ contents cp

variable {data : CaseData} {flags : Flags} {min max cp v : ℕ} {node : E}

section Letters

variable (hdata : data.Lawful) {unicode : Bool} {c : ℕ}

include hdata

theorem lowerCase_upperCase_ascii (hc : c < 128) :
    data.lowerCase (data.upperCase c) ≠ data.upperCase c ↔ isLetter c = true := by
  rw [hdata.upperCase_ascii c hc]
  simp only [isLetter, Bool.or_eq_true, Bool.and_eq_true, decide_eq_true_eq]
  split_ifs with hlower
  · rw [hdata.lowerCase_ascii _ (by omega)]
    split_ifs <;> omega
  · rw [hdata.lowerCase_ascii _ hc]
    split_ifs <;> omega

theorem eq_of_variants (hc : c < 128) (hletter : isLetter c = false) (h : data.variants unicode c v) : v = c := by
  simp only [isLetter, Bool.or_eq_false_iff, Bool.and_eq_false_iff, decide_eq_false_iff_not] at hletter
  rcases Nat.lt_or_ge v 128 with hv | hv
  · rcases (hdata.variants_ascii unicode c hc v hv).mp h with h | h
    · exact h
    · rw [h, otherCase, if_neg (by omega), if_neg (by omega)]
  · have hspecial := ((hdata.variants_outside unicode c hc v hv).mp h).2
    simp only [List.mem_cons, List.not_mem_nil, or_false] at hspecial
    omega

theorem caseRanges_of_caseless {range : ℕ × ℕ} (h : (range.1 < 128 ∧ isLetter range.1 = false) ∨ range.1 ∈ caselessStarts) :
    caseRanges data.toCaseMapping flags range = [range] := by
  have hself : data.lowerCase (data.upperCase range.1) = data.upperCase range.1 := by
    rcases h with ⟨hascii, hletter⟩ | hmem
    · by_contra hne
      rw [(lowerCase_upperCase_ascii hdata hascii).mp hne] at hletter
      cases hletter
    · obtain ⟨hupper, hlower⟩ := hdata.caseless _ hmem
      rw [hupper, hlower]
  unfold caseRanges
  dsimp only
  rw [if_neg fun hsplit => hsplit.2.1 hself]

theorem splits_iff_letters (hle : min ≤ max) (hmax : max < 128) :
    Splits data flags min max ↔ isLetter min = true ∧ isLetter max = true := by
  unfold Splits
  rw [lowerCase_upperCase_ascii hdata (by omega), lowerCase_upperCase_ascii hdata hmax]
  have hascii : isAscii min = true ∧ isAscii max = true := by simp [isAscii]; omega
  exact ⟨fun h => ⟨h.1, h.2.1⟩, fun h => ⟨h.1, h.2, Or.inl hascii⟩⟩

theorem variants_letter_iff (hc : c < 128) (hv : v < 128) :
    data.variants unicode c v ↔ v = c ∨ ((65 ≤ c ∧ c ≤ 90) ∧ v = c + 32) ∨ ((97 ≤ c ∧ c ≤ 122) ∧ v = c - 32) := by
  rw [hdata.variants_ascii unicode c hc v hv]
  unfold otherCase
  split_ifs <;> omega

end Letters

/-! ### Ranges -/

section Ranges

variable (hR : R.Lawful) (hdata : data.Lawful) (hcase : flags.ignoreCase = true)

include hcase in
theorem caseRanges_of_splits (h : Splits data flags min max) :
    caseRanges data.toCaseMapping flags (min, max) =
      [(data.upperCase min, data.upperCase max),
        (data.lowerCase (data.upperCase min), data.lowerCase (data.upperCase max))] :=
  if_pos ⟨hcase, h⟩

theorem caseRanges_of_not_splits (h : ¬ Splits data flags min max) :
    caseRanges data.toCaseMapping flags (min, max) = [(min, max)] :=
  if_neg fun hsplits => h hsplits.2

variable {element : ClassElement}

include hR in
theorem contains_of_not_splits (hvisit : visit flags element = [(min, max)]) (hle : min ≤ max) (hmax : max ≤ maxCodePoint)
    (hsplits : ¬ Splits data flags min max) (hcp : cp ≤ maxCodePoint) :
    contains R (add R data.toCaseMapping flags R.createTree element node) cp = true ↔ min ≤ cp ∧ cp ≤ max := by
  have hadd : add R data.toCaseMapping flags R.createTree element node = firstCall R min max node := by
    simp [add, hvisit, caseRanges_of_not_splits hsplits]
  rw [hadd, contains_firstCall hR hmax hcp, or_iff_left (show ¬ max < min by omega)]

include hR hdata hcase in
theorem contains_of_splits (hvisit : visit flags element = [(min, max)]) (hle : min ≤ max) (hmax : max ≤ maxCodePoint)
    (hsplits : Splits data flags min max) (hcp : cp ≤ maxCodePoint) :
    contains R (add R data.toCaseMapping flags R.createTree element node) cp = true ↔ BetweenCases data min max cp := by
  have hadd : add R data.toCaseMapping flags R.createTree element node =
      addRange R (firstCall R (data.upperCase min) (data.upperCase max) node) (data.lowerCase (data.upperCase min))
        (data.lowerCase (data.upperCase max)) node := by
    simp [add, hvisit, caseRanges_of_splits hcase hsplits]
  have hupper := hdata.upperCase_le max hmax
  rw [hadd, contains_twoCalls hR (hdata.upperCase_le min (hle.trans hmax)) hupper (hdata.lowerCase_le _ hupper) hcp]
  exact Iff.rfl

include hdata in
theorem cases_of_letter {c : ℕ} (hletter : isLetter c = true) :
    data.upperCase c = (if 97 ≤ c then c - 32 else c) ∧
      data.lowerCase (data.upperCase c) = (if 97 ≤ c then c else c + 32) := by
  simp only [isLetter, Bool.or_eq_true, Bool.and_eq_true, decide_eq_true_eq] at hletter
  have hupper : data.upperCase c = (if 97 ≤ c then c - 32 else c) := by
    rw [hdata.upperCase_ascii c (by omega)]
    split_ifs <;> omega
  refine ⟨hupper, ?_⟩
  rw [hupper, hdata.lowerCase_ascii _ (by split_ifs <;> omega)]
  split_ifs <;> omega

variable (cp) in
include hdata in
/-- Letters of one case lie between the cases of the ends together with their other cases. -/
theorem betweenCases_iff (hmin : isLetter min = true) (hmax : isLetter max = true) (hle : min ≤ max)
    (hsame : 90 < min ∨ max < 97) :
    BetweenCases data min max cp ↔ (min ≤ cp ∧ cp ≤ max) ∨
      (if 97 ≤ min then min - 32 ≤ cp ∧ cp ≤ max - 32 else min + 32 ≤ cp ∧ cp ≤ max + 32) := by
  obtain ⟨hupper, hlower⟩ := cases_of_letter hdata hmin
  obtain ⟨hupper', hlower'⟩ := cases_of_letter hdata hmax
  simp only [isLetter, Bool.or_eq_true, Bool.and_eq_true, decide_eq_true_eq] at hmin hmax
  unfold BetweenCases Between
  rw [hlower, hlower', hupper, hupper']
  split_ifs <;> omega

include hdata in
/-- Between the cases of an upper-case letter and a lower-case one the characters between the alphabets are lost, or
the `A` where the cases of the ends are in the wrong order. -/
theorem not_betweenCases_mixed (hmin : isLetter min = true) (hmax : isLetter max = true) (hfirst : min ≤ 90)
    (hlast : 97 ≤ max) : ¬ BetweenCases data min max 95 ∨ ¬ BetweenCases data min max 65 := by
  obtain ⟨hupper, hlower⟩ := cases_of_letter hdata hmin
  obtain ⟨hupper', hlower'⟩ := cases_of_letter hdata hmax
  simp only [isLetter, Bool.or_eq_true, Bool.and_eq_true, decide_eq_true_eq] at hmin hmax
  unfold BetweenCases Between
  rw [hlower, hlower', hupper, hupper', if_neg (by omega), if_pos hlast, if_neg (by omega), if_pos hlast]
  omega

include hdata in
theorem keepsCase_letters_iff {t : R.Tree} (hmin : isLetter min = true) (hmax : isLetter max = true) (hle : min ≤ max)
    (hcontains : ∀ v ≤ maxCodePoint, contains R t v = true ↔ BetweenCases data min max v)
    (hmatches : ∀ cp, Matches data flags element cp ↔ min ≤ cp ∧ cp ≤ max) :
    KeepsCase data flags element t ↔ (90 < min ∨ max < 97) ∧
      (flags.eitherUnicode = true → ∀ cp ∈ [75, 83, 107, 115], ¬ (min ≤ cp ∧ cp ≤ max)) := by
  have hletters : ∀ c, isLetter c = true ↔ (65 ≤ c ∧ c ≤ 90) ∨ (97 ≤ c ∧ c ≤ 122) := fun c => by
    simp only [isLetter, Bool.or_eq_true, Bool.and_eq_true, decide_eq_true_eq]
  have hfirst := (hletters min).mp hmin
  have hlast := (hletters max).mp hmax
  constructor
  · intro h
    have hcovers : ∀ cp, min ≤ cp → cp ≤ max → ∀ v ≤ maxCodePoint, data.variants flags.eitherUnicode cp v →
        BetweenCases data min max v := fun cp hcp hcp' v hv hvariants =>
      (hcontains v hv).mp (h.covers cp ((hmatches cp).mpr ⟨hcp, hcp'⟩) v hvariants)
    have hsame : 90 < min ∨ max < 97 := by
      by_contra hmixed
      rcases not_betweenCases_mixed hdata hmin hmax (by omega) (by omega) with hnot | hnot
      · exact hnot (hcovers 95 (by omega) (by omega) 95 (by decide) (hdata.variants_refl _ 95))
      · refine hnot (hcovers 97 (by omega) (by omega) 65 (by decide) ?_)
        exact (variants_letter_iff hdata (by decide) (by decide)).mpr (Or.inr (Or.inr (by decide)))
    refine ⟨hsame, fun hunicode cp hcp hin => ?_⟩
    -- the variant outside ASCII is beyond both ends
    obtain ⟨v, hv, hmax', hvariants⟩ : ∃ v ≥ 128, v ≤ maxCodePoint ∧ data.variants flags.eitherUnicode cp v := by
      simp only [List.mem_cons, List.not_mem_nil, or_false] at hcp
      have houtside := fun v hv => hdata.variants_outside flags.eitherUnicode cp (by omega) v hv
      by_cases hs : cp = 83 ∨ cp = 115
      · exact ⟨0x17F, by decide, by decide, (houtside _ (by decide)).mpr ⟨hunicode, Or.inl ⟨by simpa using hs, rfl⟩⟩⟩
      · exact ⟨0x212A, by decide, by decide, (houtside _ (by decide)).mpr
          ⟨hunicode, Or.inr ⟨by simp only [List.mem_cons, List.not_mem_nil, or_false]; omega, rfl⟩⟩⟩
    have hbetween := (betweenCases_iff _ hdata hmin hmax hle hsame).mp (hcovers cp hin.1 hin.2 v hmax' hvariants)
    split_ifs at hbetween <;> omega
  · rintro ⟨hsame, hspecial⟩
    have hbetween := fun v => betweenCases_iff v hdata hmin hmax hle hsame
    refine ⟨fun cp hcp v hvariants => ?_, fun v hv hin => ?_⟩
    · obtain ⟨hcp, hcp'⟩ := (hmatches cp).mp hcp
      rcases Nat.lt_or_ge v 128 with hv | hv
      · refine (hcontains v (hv.le.trans (by decide))).mpr ((hbetween v).mpr ?_)
        have := (variants_letter_iff hdata (by omega) hv).mp hvariants
        split_ifs <;> omega
      · obtain ⟨hunicode, hcase⟩ := (hdata.variants_outside _ cp (by omega) v hv).mp hvariants
        refine absurd ⟨hcp, hcp'⟩ (hspecial hunicode cp ?_)
        simp only [List.mem_cons, List.not_mem_nil, or_false] at hcase ⊢
        omega
    · have hin := (hbetween v).mp ((hcontains v (hv.le.trans (by decide))).mp hin)
      have hvariant : ∀ cp, cp < 128 → min ≤ cp ∧ cp ≤ max →
          (v = cp ∨ ((65 ≤ cp ∧ cp ≤ 90) ∧ v = cp + 32) ∨ ((97 ≤ cp ∧ cp ≤ 122) ∧ v = cp - 32)) →
          ∃ cp, Matches data flags element cp ∧ data.variants flags.eitherUnicode cp v := fun cp hlt hcp h =>
        ⟨cp, (hmatches cp).mpr hcp, (variants_letter_iff hdata hlt hv).mpr h⟩
      rcases hin with hin | hin
      · exact hvariant v hv hin (Or.inl rfl)
      · split_ifs at hin with hlower
        · exact hvariant (v + 32) (by omega) (by omega) (by omega)
        · exact hvariant (v - 32) (by omega) (by omega) (by omega)

include hR hdata hcase in
/-- **Characters and ranges.** -/
theorem keepsCase_range_iff (hvisit : visit flags element = [(min, max)])
    (hmatches : ∀ cp, Matches data flags element cp ↔ min ≤ cp ∧ cp ≤ max) (hle : min ≤ max)
    (hmax : max ≤ maxCodePoint) :
    KeepsCase data flags element (add R data.toCaseMapping flags R.createTree element node) ↔
      LosslessRange data flags min max := by
  have hvariant : ∀ cp v, min ≤ cp ∧ cp ≤ max → data.variants flags.eitherUnicode cp v → v ≤ maxCodePoint :=
    fun cp v hcp h => hdata.variants_le _ cp (hcp.2.trans hmax) v h
  by_cases hsplits : Splits data flags min max
  · have hcontains : ∀ v ≤ maxCodePoint, contains R (add R data.toCaseMapping flags R.createTree element node) v = true ↔
        BetweenCases data min max v := fun v hv => contains_of_splits hR hdata hcase hvisit hle hmax hsplits hv
    rcases Nat.lt_or_ge max 128 with hascii | hascii
    · obtain ⟨hmin, hlast⟩ := (splits_iff_letters hdata hle hascii).mp hsplits
      rw [keepsCase_letters_iff hdata hmin hlast hle hcontains hmatches]
      exact ⟨fun h => ⟨fun hnot => absurd hsplits hnot, fun _ _ => h, fun _ hge => by omega⟩,
        fun h => h.sameCase hsplits hascii⟩
    · constructor
      · refine fun h => ⟨fun hnot => absurd hsplits hnot, fun _ hlt => by omega, fun _ _ => ⟨?_, fun v hv hbetween => ?_⟩⟩
        · intro cp hmin hmax' v hv
          exact (hcontains v (hvariant cp v ⟨hmin, hmax'⟩ hv)).mp (h.covers cp ((hmatches cp).mpr ⟨hmin, hmax'⟩) v hv)
        · obtain ⟨cp, hcp, hvariants⟩ := h.ascii v hv ((hcontains v (hv.le.trans (by decide))).mpr hbetween)
          exact ⟨cp, (hmatches cp).mp hcp, hvariants⟩
      · intro h
        obtain ⟨hcovers, honly⟩ := h.between hsplits hascii
        refine ⟨fun cp hcp v hv => ?_, fun v hv hin => ?_⟩
        · have hcp := (hmatches cp).mp hcp
          exact (hcontains v (hvariant cp v hcp hv)).mpr (hcovers cp hcp.1 hcp.2 v hv)
        · obtain ⟨cp, hcp, hvariants⟩ := honly v hv ((hcontains v (hv.le.trans (by decide))).mp hin)
          exact ⟨cp, (hmatches cp).mpr hcp, hvariants⟩
  · have hcontains : ∀ v ≤ maxCodePoint, contains R (add R data.toCaseMapping flags R.createTree element node) v = true ↔
        min ≤ v ∧ v ≤ max := fun v hv => contains_of_not_splits hR hvisit hle hmax hsplits hv
    constructor
    · refine fun h => ⟨fun _ cp hmin hmax' v hv => ?_, fun hsplit => absurd hsplit hsplits, fun hsplit => absurd hsplit hsplits⟩
      exact (hcontains v (hvariant cp v ⟨hmin, hmax'⟩ hv)).mp (h.covers cp ((hmatches cp).mpr ⟨hmin, hmax'⟩) v hv)
    · intro h
      refine ⟨fun cp hcp v hv => ?_, fun v hv hin => ?_⟩
      · have hcp := (hmatches cp).mp hcp
        exact (hcontains v (hvariant cp v hcp hv)).mpr (h.closed hsplits cp hcp.1 hcp.2 v hv)
      · exact ⟨v, (hmatches v).mpr ((hcontains v (hv.le.trans (by decide))).mp hin), hdata.variants_refl _ v⟩

end Ranges

/-! ### Escape sets -/

section Sets

variable (hR : R.Lawful) (hdata : data.Lawful) (hcase : flags.ignoreCase = true) {kind : EscapeKind} {negate : Bool}

theorem caseless_visitCharacterSet (unicode : Bool) (h : kind = .word → negate = true) :
    ∀ range ∈ visitCharacterSet unicode kind negate,
      (range.1 < 128 ∧ isLetter range.1 = false) ∨ range.1 ∈ caselessStarts := by
  cases kind <;> cases negate <;> cases unicode <;> first | decide | exact absurd (h rfl) (by decide)

variable (flags node kind negate) in
include hR hdata in
theorem contains_set_iff (h : kind = .word → negate = true) (hcp : cp ≤ maxCodePoint) :
    contains R (add R data.toCaseMapping flags R.createTree (.CharacterSet kind negate) node) cp = true ↔
      ∃ range ∈ visitCharacterSet flags.unicode kind negate, range.1 ≤ cp ∧ cp ≤ range.2 :=
  contains_add_iff hR
    (fun range hrange => caseRanges_of_caseless hdata (caseless_visitCharacterSet flags.unicode h range hrange)) hcp

/-- The code points of the ranges of a set. -/
def InSet (unicode : Bool) (kind : EscapeKind) (negate : Bool) (cp : ℕ) : Prop :=
  ∃ range ∈ visitCharacterSet unicode kind negate, range.1 ≤ cp ∧ cp ≤ range.2

variable (flags) in
theorem lastCharacter_ge : 0xFFFF ≤ lastCharacter flags := by
  unfold lastCharacter
  split_ifs <;> decide

variable (flags) in
theorem lastCharacter_le : lastCharacter flags ≤ maxCodePoint := by
  unfold lastCharacter
  split_ifs <;> decide

include hdata in
theorem not_keepsCase_of_missing {element : ClassElement} {t : R.Tree} (cp : ℕ)
    (hmatches : Matches data flags element cp) (hmissing : contains R t cp ≠ true) : ¬ KeepsCase data flags element t :=
  fun h => hmissing (h.covers cp hmatches cp (hdata.variants_refl _ cp))

include hR hdata in
theorem keepsCase_digit : KeepsCase data flags (.CharacterSet .digit false)
    (add R data.toCaseMapping flags R.createTree (.CharacterSet .digit false) node) := by
  have hcontains : ∀ v ≤ maxCodePoint, _ := fun v hv =>
    contains_set_iff flags node hR hdata .digit false nofun hv
  have hmatches : ∀ cp, Matches data flags (.CharacterSet .digit false) cp ↔ 0x30 ≤ cp ∧ cp ≤ 0x39 := fun cp => by
    have := lastCharacter_ge flags
    simp only [Matches, Denotes, EscapeKind.contains, ne_eq, Bool.not_eq_false, Bool.and_eq_true, decide_eq_true_eq]
    omega
  simp only [visitCharacterSet, List.mem_singleton, exists_eq_left] at hcontains
  refine ⟨fun cp hcp v hv => ?_, fun v hv hin => ⟨v, (hmatches v).mpr ?_, hdata.variants_refl _ v⟩⟩
  · have hcp := (hmatches cp).mp hcp
    have hletter : isLetter cp = false := by
      simp only [isLetter, Bool.or_eq_false_iff, Bool.and_eq_false_iff, decide_eq_false_iff_not]
      omega
    rw [eq_of_variants hdata (by omega) hletter hv]
    exact (hcontains cp (by simp only [maxCodePoint]; omega)).mpr hcp
  · exact (hcontains v (hv.le.trans (by decide))).mp hin

include hR hdata in
/-- Where only characters of ASCII without case are left out nothing is lost. -/
theorem keepsCase_of_negated (hkind : kind ≠ .word)
    (hset : ∀ cp ≤ maxCodePoint, InSet flags.unicode kind true cp ↔ kind.contains cp = false ∨ 128 ≤ cp)
    (hletter : ∀ cp < 128, kind.contains cp = true → isLetter cp = false) :
    KeepsCase data flags (.CharacterSet kind true)
      (add R data.toCaseMapping flags R.createTree (.CharacterSet kind true) node) := by
  have hcontains : ∀ v ≤ maxCodePoint, _ := fun v hv =>
    (contains_set_iff flags node hR hdata kind true (fun _ => rfl) hv).trans
      (hset v hv)
  have hmatches : ∀ cp, Matches data flags (.CharacterSet kind true) cp ↔
      cp ≤ lastCharacter flags ∧ kind.contains cp = false := fun cp => by
    have : Matches data flags (.CharacterSet kind true) cp ↔ cp ≤ lastCharacter flags ∧ kind.contains cp ≠ true := by
      cases kind with
      | digit | space => exact Iff.rfl
      | word => exact absurd rfl hkind
    rw [this, ne_eq, Bool.not_eq_true]
  refine ⟨fun cp hcp v hv => ?_, fun v hv hin => ⟨v, (hmatches v).mpr ?_, hdata.variants_refl _ v⟩⟩
  · obtain ⟨hlast, hnot⟩ := (hmatches cp).mp hcp
    have hv' := hdata.variants_le _ cp (hlast.trans (lastCharacter_le _)) v hv
    refine (hcontains v hv').mpr ?_
    by_contra hin
    obtain ⟨hkind', hlt⟩ := not_or.mp hin
    rw [Bool.not_eq_false] at hkind'
    rw [eq_of_variants hdata (by omega) (hletter v (by omega) hkind') (hdata.variants_symm _ _ _ hv)] at hnot
    rw [hnot] at hkind'
    cases hkind'
  · have := lastCharacter_ge flags
    exact ⟨by omega, ((hcontains v (hv.le.trans (by decide))).mp hin).resolve_right (by omega)⟩

theorem matches_word_iff (cp : ℕ) : Matches data flags (.CharacterSet .word negate) cp ↔ cp ≤ lastCharacter flags ∧
    ((∃ w, EscapeKind.word.contains w = true ∧ data.variants flags.eitherUnicode w cp) ↔ negate = false) := Iff.rfl

theorem word_iff : EscapeKind.word.contains cp = true ↔
    (0x30 ≤ cp ∧ cp ≤ 0x39) ∨ (0x41 ≤ cp ∧ cp ≤ 0x5A) ∨ cp = 0x5F ∨ (0x61 ≤ cp ∧ cp ≤ 0x7A) := by
  simp only [EscapeKind.contains, Bool.or_eq_true, Bool.and_eq_true, decide_eq_true_eq, beq_iff_eq, or_assoc]

include hdata in
theorem word_of_variants {w : ℕ} {unicode : Bool} (hw : EscapeKind.word.contains w = true) (hcp : cp < 128)
    (h : data.variants unicode w cp) : EscapeKind.word.contains cp = true := by
  rw [word_iff] at hw ⊢
  have := (variants_letter_iff hdata (by omega) hcp).mp h
  omega

include hR hdata in
theorem keepsCase_not_word (hunicode : flags.unicode = false) : KeepsCase data flags (.CharacterSet .word true)
    (add R data.toCaseMapping flags R.createTree (.CharacterSet .word true) node) := by
  have hcontains : ∀ v ≤ maxCodePoint, _ := fun v hv =>
    contains_set_iff flags node hR hdata .word true (fun _ => rfl) hv
  have hset : ∀ v ≤ maxCodePoint, (∃ range ∈ visitCharacterSet flags.unicode .word true, range.1 ≤ v ∧ v ≤ range.2) ↔
      ¬ EscapeKind.word.contains v = true := fun v hv => by
    rw [word_iff, hunicode]
    simp only [visitCharacterSet, Bool.false_eq_true, if_false, List.mem_cons, List.not_mem_nil, or_false, exists_eq_or_imp,
      exists_eq_left]
    omega
  refine ⟨fun cp hcp v hv => ?_, fun v hv hin => ⟨v, (matches_word_iff v).mpr ⟨?_, ?_⟩, hdata.variants_refl _ v⟩⟩
  · obtain ⟨hlast, hnot⟩ := (matches_word_iff cp).mp hcp
    have hv' := hdata.variants_le _ cp (hlast.trans (lastCharacter_le _)) v hv
    refine (hcontains v hv').mpr ((hset v hv').mpr fun hw => ?_)
    exact absurd (hnot.mp ⟨v, hw, hdata.variants_symm _ _ _ hv⟩) (by decide)
  · have := lastCharacter_ge flags
    omega
  · have hv' : v ≤ maxCodePoint := hv.le.trans (by decide)
    have hnot := (hset v hv').mp ((hcontains v hv').mp hin)
    refine iff_of_false ?_ (by decide)
    rintro ⟨w, hw, hvariants⟩
    exact hnot (word_of_variants hdata hw hv hvariants)

/-- The calls for `\w`: the letters are added once for each case. -/
def wordRanges (node : E) : List (Range E) :=
  [⟨0x30, 0x39, node, by decide, by decide⟩, ⟨0x41, 0x5A, node, by decide, by decide⟩,
    ⟨0x61, 0x7A, node, by decide, by decide⟩, ⟨0x5F, 0x5F, node, by decide, by decide⟩,
    ⟨0x41, 0x5A, node, by decide, by decide⟩, ⟨0x61, 0x7A, node, by decide, by decide⟩]

include hdata hcase in
theorem add_word : add R data.toCaseMapping flags R.createTree (.CharacterSet .word false) node =
    addRanges R (wordRanges node) := by
  have hletters : ∀ min max, isLetter min = true → isLetter max = true → min ≤ max → max < 128 →
      caseRanges data.toCaseMapping flags (min, max) =
        [(if 97 ≤ min then min - 32 else min, if 97 ≤ max then max - 32 else max),
          (if 97 ≤ min then min else min + 32, if 97 ≤ max then max else max + 32)] :=
    fun min max hmin hmax hle hlt => by
      obtain ⟨hupper, hlower⟩ := cases_of_letter hdata hmin
      obtain ⟨hupper', hlower'⟩ := cases_of_letter hdata hmax
      rw [caseRanges_of_splits hcase ((splits_iff_letters hdata hle hlt).mpr ⟨hmin, hmax⟩), hlower, hlower', hupper,
        hupper']
  have hcaseless : ∀ min max, min < 128 → isLetter min = false →
      caseRanges data.toCaseMapping flags (min, max) = [(min, max)] :=
    fun min max hlt hletter => caseRanges_of_caseless hdata (Or.inl ⟨hlt, hletter⟩)
  unfold add
  simp only [visit, visitCharacterSet, List.flatMap_cons, List.flatMap_nil, List.append_nil,
    hcaseless 0x30 0x39 (by decide) (by decide), hcaseless 0x5F 0x5F (by decide) (by decide),
    hletters 0x41 0x5A (by decide) (by decide) (by decide) (by decide),
    hletters 0x61 0x7A (by decide) (by decide) (by decide) (by decide)]
  rfl

variable (flags node) in
include hR hdata hcase in
theorem contains_word_iff (hcp : cp ≤ maxCodePoint) :
    contains R (add R data.toCaseMapping flags R.createTree (.CharacterSet .word false) node) cp = true ↔
      EscapeKind.word.contains cp = true := by
  rw [add_word hdata hcase, word_iff]
  constructor
  · intro h
    obtain ⟨value, howner⟩ := Option.isSome_iff_exists.mp h
    obtain ⟨range, hrange, -, hmin, hmax⟩ := exists_of_owner_addRanges hR hcp howner
    simp only [wordRanges, List.mem_cons, List.not_mem_nil, or_false] at hrange
    rcases hrange with rfl | rfl | rfl | rfl | rfl | rfl <;> (dsimp only at hmin hmax; omega)
  · -- the first four ranges do not meet
    have hfirst : ∀ before range after, wordRanges node = before ++ range :: after →
        (∀ earlier ∈ before, earlier.toCp < range.fromCp ∨ range.toCp < earlier.fromCp) → range.contains cp →
          contains R (addRanges R (wordRanges node)) cp = true := fun before range after hsplit hapart h => by
      rw [hsplit]
      refine contains_addRanges_of_apart hR (fun earlier hearlier cp' hboth => ?_) h
      have := hapart earlier hearlier
      have h₁ := hboth.1
      have h₂ := hboth.2
      unfold Range.contains at h₁ h₂
      omega
    rintro (h | h | h | h)
    · exact hfirst [] _ _ rfl (List.forall_mem_nil _) h
    · exact hfirst [_] _ _ rfl (by simp) h
    · exact hfirst [_, _, _] _ _ rfl (by simp) ⟨h.ge, h.le⟩
    · exact hfirst [_, _] _ _ rfl (by simp) h

include hR hdata hcase in
theorem keepsCase_word_iff : KeepsCase data flags (.CharacterSet .word false)
    (add R data.toCaseMapping flags R.createTree (.CharacterSet .word false) node) ↔ flags.eitherUnicode = false := by
  have hcontains : ∀ v ≤ maxCodePoint, _ := fun v hv =>
    contains_word_iff flags node hR hdata hcase hv
  have hlast := lastCharacter_ge flags
  have hlast' := lastCharacter_le flags
  constructor
  · intro h
    by_contra hunicode
    rw [Bool.not_eq_false] at hunicode
    -- the long s is a word character
    refine not_keepsCase_of_missing hdata 0x17F ((matches_word_iff _).mpr ⟨by omega, ?_⟩) ?_ h
    · refine iff_of_true ⟨115, by decide, ?_⟩ rfl
      exact (hdata.variants_outside _ 115 (by decide) 0x17F (by decide)).mpr ⟨hunicode, Or.inl ⟨by decide, rfl⟩⟩
    · rw [ne_eq, hcontains 0x17F (by decide)]
      decide
  · intro hunicode
    -- without the flags no variant of a character of ASCII is outside
    have hword : ∀ w v, EscapeKind.word.contains w = true → data.variants flags.eitherUnicode w v →
        EscapeKind.word.contains v = true := fun w v hw hv => by
      rcases Nat.lt_or_ge v 128 with hlt | hge
      · exact word_of_variants hdata hw hlt hv
      · have hascii := word_iff.mp hw
        have := ((hdata.variants_outside _ w (by omega) v hge).mp hv).1
        rw [hunicode] at this
        cases this
    refine ⟨fun cp hcp v hv => ?_, fun v hv hin => ⟨v, (matches_word_iff _).mpr ⟨by omega, ?_⟩, hdata.variants_refl _ v⟩⟩
    · obtain ⟨hle, hmatches⟩ := (matches_word_iff _).mp hcp
      obtain ⟨w, hw, hvariants⟩ := hmatches.mpr rfl
      exact (hcontains v (hdata.variants_le _ cp (hle.trans hlast') v hv)).mpr (hword cp v (hword w cp hw hvariants) hv)
    · exact iff_of_true ⟨v, (hcontains v (hv.le.trans (by decide))).mp hin, hdata.variants_refl _ v⟩ rfl

include hR hdata in
theorem keepsCase_not_digit (hunicode : flags.unicode = false) : KeepsCase data flags (.CharacterSet .digit true)
    (add R data.toCaseMapping flags R.createTree (.CharacterSet .digit true) node) := by
  refine keepsCase_of_negated hR hdata nofun (fun cp hcp => ?_) fun cp _ hdigit => ?_
  · rw [hunicode]
    simp only [InSet, visitCharacterSet, EscapeKind.contains, Bool.false_eq_true, if_false, List.mem_cons,
      List.not_mem_nil, or_false, exists_eq_or_imp, exists_eq_left, Bool.and_eq_false_iff, decide_eq_false_iff_not]
    omega
  · simp only [isLetter, EscapeKind.contains, Bool.or_eq_false_iff, Bool.and_eq_false_iff, decide_eq_false_iff_not,
      Bool.and_eq_true, decide_eq_true_eq] at hdigit ⊢
    omega

include hR hdata in
theorem keepsCase_not_space (hunicode : flags.unicode = false) : KeepsCase data flags (.CharacterSet .space true)
    (add R data.toCaseMapping flags R.createTree (.CharacterSet .space true) node) := by
  refine keepsCase_of_negated hR hdata nofun (fun cp hcp => ?_) fun cp hlt hspace => ?_
  · rw [hunicode]
    simp only [InSet, visitCharacterSet, EscapeKind.contains, isWhiteSpace, Bool.false_eq_true, if_false, List.mem_cons,
      List.cons_append, List.nil_append, List.not_mem_nil, or_false, exists_eq_or_imp, exists_eq_left,
      Bool.or_eq_false_iff, Bool.and_eq_false_iff, decide_eq_false_iff_not, not_or]
    omega
  · simp only [isLetter, EscapeKind.contains, isWhiteSpace, Bool.or_eq_false_iff, Bool.and_eq_false_iff,
      decide_eq_false_iff_not, Bool.or_eq_true, Bool.and_eq_true, decide_eq_true_eq, List.mem_cons, List.not_mem_nil,
      or_false] at hspace ⊢
    omega

include hR hdata in
/-- A code point that the ranges of a set leave out. -/
theorem not_keepsCase_of_not_inSet (cp : ℕ) (hcp : cp ≤ 0xFFFF) (hkind : kind = .word → negate = true)
    (hmatches : cp ≤ lastCharacter flags → Matches data flags (.CharacterSet kind negate) cp)
    (hnot : ¬ InSet flags.unicode kind negate cp) : ¬ KeepsCase data flags (.CharacterSet kind negate)
      (add R data.toCaseMapping flags R.createTree (.CharacterSet kind negate) node) := by
  refine not_keepsCase_of_missing hdata cp (hmatches (hcp.trans (lastCharacter_ge _))) ?_
  rw [ne_eq, contains_set_iff _ _ hR hdata _ _ hkind (hcp.trans (by decide))]
  exact hnot

include hR hdata in
theorem not_keepsCase_space : ¬ KeepsCase data flags (.CharacterSet .space false)
    (add R data.toCaseMapping flags R.createTree (.CharacterSet .space false) node) := by
  cases hunicode : flags.unicode with
  | false =>
    refine not_keepsCase_of_not_inSet hR hdata 0xA0 (by decide) nofun (fun hlast => ⟨hlast, by decide⟩) ?_
    rw [hunicode]
    unfold InSet
    decide
  | true =>
    refine not_keepsCase_of_not_inSet hR hdata 0xFEFF (by decide) nofun (fun hlast => ⟨hlast, by decide⟩) ?_
    rw [hunicode]
    unfold InSet
    decide

include hR hdata in
theorem not_keepsCase_negated (hunicode : flags.unicode = true) : ¬ KeepsCase data flags (.CharacterSet kind true)
    (add R data.toCaseMapping flags R.createTree (.CharacterSet kind true) node) := by
  have hnot : ∀ cp kind, ¬ InSet true kind true cp → ¬ InSet flags.unicode kind true cp := fun cp kind h => by
    rwa [hunicode]
  cases kind with
  | digit =>
    refine not_keepsCase_of_not_inSet hR hdata 0x100 (by decide) nofun (fun hlast => ⟨hlast, by decide⟩) (hnot _ _ ?_)
    unfold InSet
    decide
  | space =>
    refine not_keepsCase_of_not_inSet hR hdata 0x85 (by decide) nofun (fun hlast => ⟨hlast, by decide⟩) (hnot _ _ ?_)
    unfold InSet
    decide
  | word =>
    refine not_keepsCase_of_not_inSet hR hdata 0xF7 (by decide) (fun _ => rfl)
      (fun hlast => ⟨hlast, iff_of_false ?_ (by decide)⟩) (hnot _ _ ?_)
    · rintro ⟨w, hw, hvariants⟩
      have hascii := word_iff.mp hw
      have := ((hdata.variants_outside _ w (by omega) 0xF7 (by decide)).mp hvariants).2
      omega
    · unfold InSet
      decide

include hR hdata hcase in
theorem keepsCase_set_iff : KeepsCase data flags (.CharacterSet kind negate)
    (add R data.toCaseMapping flags R.createTree (.CharacterSet kind negate) node) ↔
      Lossless data flags (.CharacterSet kind negate) := by
  cases negate with
  | false =>
    cases kind with
    | digit => exact iff_of_true (keepsCase_digit hR hdata) trivial
    | space => exact iff_of_false (not_keepsCase_space hR hdata) id
    | word => exact keepsCase_word_iff hR hdata hcase
  | true =>
    have hlossless : Lossless data flags (.CharacterSet kind true) ↔ flags.unicode = false := by cases kind <;> exact Iff.rfl
    rw [hlossless]
    cases hunicode : flags.unicode with
    | false =>
      refine iff_of_true ?_ rfl
      cases kind with
      | digit => exact keepsCase_not_digit hR hdata hunicode
      | space => exact keepsCase_not_space hR hdata hunicode
      | word => exact keepsCase_not_word hR hdata hunicode
    | true => exact iff_of_false (not_keepsCase_negated hR hdata hunicode) (by decide)

end Sets

/-- **Ignoring case.** After an element has been added the class contains the variants of what the element denotes,
and nothing else of ASCII, if and only if the element is lossless. -/
theorem lossless_iff (hR : R.Lawful) (hdata : data.Lawful) (hcase : flags.ignoreCase = true) (element : ClassElement)
    (node : E) : KeepsCase data flags element (add R data.toCaseMapping flags R.createTree element node) ↔
      Lossless data flags element := by
  cases element with
  | Character value hmax =>
    refine keepsCase_range_iff hR hdata hcase rfl (fun cp => ?_) le_rfl hmax
    show cp = value ↔ _
    omega
  | CharacterClassRange min max hle hmax => exact keepsCase_range_iff hR hdata hcase rfl (fun _ => Iff.rfl) hle hmax
  | CharacterSet kind negate => exact keepsCase_set_iff hR hdata hcase
  | Unvisited contents =>
    have hempty : ∀ cp, contains R (add R data.toCaseMapping flags R.createTree (.Unvisited contents) node) cp = false :=
      fun cp => contains_createTree hR
    constructor
    · intro h cp hcp
      have := h.covers cp hcp cp (hdata.variants_refl _ cp)
      rw [hempty] at this
      cases this
    · refine fun h => ⟨fun cp hcp => absurd hcp (h cp), fun v _ hin => ?_⟩
      rw [hempty] at hin
      cases hin

/-! ### ASCII -/

/-- The simple case folding in ASCII and into it. -/
def foldCase (unicode : Bool) (c : ℕ) : ℕ :=
  if 65 ≤ c ∧ c ≤ 90 then c + 32
  else if unicode = true ∧ c = 0x17F then 115
  else if unicode = true ∧ c = 0x212A then 107
  else c

/-- The mappings of ASCII. -/
def asciiCase : CaseData where
  upperCase c := if 97 ≤ c ∧ c ≤ 122 then c - 32 else c
  lowerCase c := if 65 ≤ c ∧ c ≤ 90 then c + 32 else c
  variants unicode c v := foldCase unicode v = foldCase unicode c

theorem lawful_asciiCase : asciiCase.Lawful where
  upperCase_ascii _ _ := rfl
  lowerCase_ascii _ _ := rfl
  caseless := by decide
  upperCase_le c hc := by
    simp only [asciiCase]
    split_ifs <;> omega
  lowerCase_le c hc := by
    simp only [asciiCase, maxCodePoint] at hc ⊢
    split_ifs <;> omega
  variants_refl _ _ := rfl
  variants_symm _ _ _ h := h.symm
  variants_le unicode c hc v h := by
    simp only [asciiCase, foldCase, maxCodePoint] at hc h ⊢
    split_ifs at h <;> omega
  variants_ascii unicode c hc v hv := by
    simp only [asciiCase, foldCase, otherCase]
    split_ifs <;> omega
  variants_outside unicode c hc v hv := by
    simp only [asciiCase, foldCase, List.mem_cons, List.not_mem_nil, or_false]
    cases unicode <;> simp <;> split_ifs <;> omega

def flagI : Flags := ⟨true, false, false⟩

/-- `[a-c]`. -/
theorem lossless_iff_aToC :
    KeepsCase asciiCase flagI (.CharacterClassRange 97 99 (by decide) (by decide))
      (add (sortedEntries ℕ (Option ℕ)) asciiCase.toCaseMapping flagI ⟨[], List.Pairwise.nil⟩
        (.CharacterClassRange 97 99 (by decide) (by decide)) 0) := by
  have hsplits : Splits asciiCase flagI 97 99 :=
    (splits_iff_letters lawful_asciiCase (by decide) (by decide)).mpr (by decide)
  refine (lossless_iff lawful_sortedEntries lawful_asciiCase rfl _ 0).mpr ⟨fun hnot => absurd hsplits hnot, fun _ _ => ?_,
    fun _ hge => absurd hge (by decide)⟩
  exact ⟨Or.inl (by decide), fun hunicode => absurd hunicode (by decide)⟩

/-- `[A-z]` loses the underscore. -/
theorem aToZ_loses_underscore :
    ¬ KeepsCase asciiCase flagI (.CharacterClassRange 65 122 (by decide) (by decide))
      (add (sortedEntries ℕ (Option ℕ)) asciiCase.toCaseMapping flagI ⟨[], List.Pairwise.nil⟩
        (.CharacterClassRange 65 122 (by decide) (by decide)) 0) := fun h =>
  absurd (h.covers 95 ⟨by decide, by decide⟩ 95 rfl) (by decide)

end SonarJavascript.Regex
