import SonarJavascript.Regex.CharacterClass

/-!
# Intersections of character classes

`findIntersections` goes through the segments of a class and asks for each whether the further class has an entry in
it. A segment ends before the next key, but next to another element the key itself is asked for too:
`exact_iff` says when this finds an element that has no code point in the further class.
-/

namespace SonarJavascript.Regex

open OrderedTree

variable {E : Type}

/-! ### The source -/

section Source

-- `forEach` gives the entries it visits between two keys, the second one excluded
variable (R : OrderedTree ℕ (Option E)) (forEach : R.Tree → ℕ → ℕ → List (ℕ × Option E))

def isRangeEmpty (contents : R.Tree) (fromCp toCp : ℕ) : Bool := (forEach contents fromCp toCp).isEmpty

def hasEntryBetween (contents : R.Tree) (fromCp toCp : ℕ) : Bool :=
  (owner R contents fromCp).isSome || !isRangeEmpty R forEach contents (fromCp + 1) (toCp + 1)

/-- The end of a segment, given the entry after it. -/
def segmentEnd : Option (ℕ × Option E) → ℕ
  | some (key, value) => if value.isSome then key else key - 1
  | none => maxCodePoint

/-- The loop from an entry on, and what follows it for the last entry. -/
def intersectionsFrom (contents : R.Tree) : ℕ → R.Iterator → List E
  | 0, _ => []
  | n + 1, iter =>
    match R.entry iter with
    | none => []
    | some (key, value) =>
      value.toList.filter (fun _ => hasEntryBetween R forEach contents key (segmentEnd (R.entry (R.next iter)))) ++
        intersectionsFrom contents n (R.next iter)

/-- `contents` is the class of `this`, `that` the one of the argument. -/
def findIntersections (contents that : R.Tree) : List E :=
  intersectionsFrom R forEach contents (R.length that) (R.begin that)

end Source

variable {R : OrderedTree ℕ (Option E)} {forEach : R.Tree → ℕ → ℕ → List (ℕ × Option E)}

/-! ### What calls of `addRange` leave -/

section Calls

variable {t : R.Tree} {fromCp toCp : ℕ} {element : E} {e : ℕ × Option E} {cp : ℕ}

variable (t element) in
theorem mem_addRange_first (hR : R.Lawful) (hle : fromCp ≤ toCp) :
    (fromCp, some element) ∈ R.entries (addRange R t fromCp toCp element) := by
  rw [mem_addRange_of_ne hR (by dsimp only; omega)]
  rcases fill_cases hR t fromCp toCp element with ⟨-, hmem⟩ | ⟨gap, -, ⟨hgap, -⟩, hmem⟩
  · exact (hmem _).mpr (Or.inl rfl)
  · exact (hmem _).mpr (Or.inr ⟨Or.inl rfl, (isGap_iff.mp hgap).1.ne⟩)

theorem owner_addRange_first (hR : R.Lawful) (hle : fromCp ≤ toCp) :
    owner R (addRange R t fromCp toCp element) fromCp = some element :=
  owner_of_isFloor hR (e := (fromCp, some element)) ⟨mem_addRange_first _ _ hR hle, le_rfl, fun _ _ h => h⟩

variable (fromCp toCp element) in
theorem exists_mem_fill (hR : R.Lawful) (he : e ∈ R.entries t) :
    ∃ value, (e.1, value) ∈ R.entries (fill R t fromCp toCp element) := by
  rcases fill_cases hR t fromCp toCp element with ⟨-, hmem⟩ | ⟨gap, -, -, hmem⟩
  · by_cases hfirst : e.1 = fromCp
    · exact ⟨_, (hmem _).mpr (Or.inl (by rw [hfirst]))⟩
    · exact ⟨_, (hmem e).mpr (Or.inr ⟨he, hfirst⟩)⟩
  · by_cases hgap : e.1 = gap.1
    · exact ⟨_, (hmem _).mpr (Or.inl (by rw [hgap]))⟩
    · by_cases hfirst : e.1 = fromCp
      · exact ⟨some element, (hmem _).mpr (Or.inr ⟨Or.inl (Prod.ext hfirst rfl), hgap⟩)⟩
      · exact ⟨_, (hmem e).mpr (Or.inr ⟨Or.inr ⟨he, hfirst⟩, hgap⟩)⟩

theorem exists_after_gap (hR : R.Lawful) (he : e ∈ R.entries (fill R t fromCp toCp element))
    (hgap : isGap fromCp toCp e = true) :
    ∃ e' ∈ R.entries (fill R t fromCp toCp element), e.1 < e'.1 ∧ e'.1 ≤ toCp := by
  obtain ⟨hlt, hle, hvalue⟩ := isGap_iff.mp hgap
  rcases fill_cases hR t fromCp toCp element with ⟨hno, hmem⟩ | ⟨gap, -, ⟨hg, hlast⟩, hmem⟩
  · rcases (hmem e).mp he with rfl | ⟨he, -⟩
    · cases hvalue
    · exact absurd hgap (hno e he)
  · rcases (hmem e).mp he with rfl | ⟨rfl | ⟨he, -⟩, hne⟩
    · cases hvalue
    · cases hvalue
    · exact ⟨_, (hmem _).mpr (Or.inl rfl), lt_of_le_of_ne (hlast e he hgap) hne, (isGap_iff.mp hg).2.1⟩

theorem owner_addRange_inside (hR : R.Lawful) (hcp : fromCp ≤ cp) (hcp' : cp ≤ toCp) :
    owner R (addRange R t fromCp toCp element) cp = some element ∨
      owner R (addRange R t fromCp toCp element) cp = owner R t cp := by
  have hle := hcp.trans hcp'
  obtain ⟨floor, hfloor⟩ := exists_isFloor (hR.sorted _) (mem_addRange_first t element hR hle) hcp
  rw [owner_of_isFloor hR hfloor]
  have hmem := hfloor.mem
  have hkey := hfloor.le
  rw [mem_addRange_of_ne hR (by omega)] at hmem
  have hold : floor ∈ R.entries t → floor.2 = owner R t cp := fun h => by
    refine (owner_of_isFloor hR ⟨h, hkey, fun e he hecp => ?_⟩).symm
    obtain ⟨value, hvalue⟩ := exists_mem_fill fromCp toCp element hR he
    exact hfloor.greatest (e.1, value) ((mem_addRange_of_ne hR (by dsimp only; omega)).mpr hvalue) hecp
  rcases fill_cases hR t fromCp toCp element with ⟨-, hiff⟩ | ⟨gap, -, -, hiff⟩
  · rcases (hiff floor).mp hmem with rfl | ⟨h, -⟩
    · exact Or.inl rfl
    · exact Or.inr (hold h)
  · rcases (hiff floor).mp hmem with rfl | ⟨rfl | ⟨h, -⟩, -⟩
    · exact Or.inl rfl
    · exact Or.inl rfl
    · exact Or.inr (hold h)

variable (element) in
theorem owner_addRange (hR : R.Lawful) (hle : fromCp ≤ toCp) (hmax : cp ≤ maxCodePoint) :
    owner R (addRange R t fromCp toCp element) cp = owner R t cp ∨
      (fromCp ≤ cp ∧ cp ≤ toCp) ∧ owner R (addRange R t fromCp toCp element) cp = some element := by
  rcases Nat.lt_or_ge cp fromCp with hlt | hge
  · exact Or.inl (owner_addRange_before hR hle hlt)
  · rcases Nat.lt_or_ge toCp cp with hgt | hle'
    · exact Or.inl (owner_addRange_after hR hle hgt hmax)
    · exact (owner_addRange_inside hR hge hle').symm.imp id fun h => ⟨⟨hge, hle'⟩, h⟩

theorem contains_addRange_of_contains (hR : R.Lawful) (hle : fromCp ≤ toCp) (hmax : cp ≤ maxCodePoint)
    (h : contains R t cp = true) : contains R (addRange R t fromCp toCp element) cp = true := by
  rw [contains_eq_isSome] at h ⊢
  rcases owner_addRange element hR hle hmax with heq | ⟨-, heq⟩
  · rw [heq, h]
  · rw [heq, Option.isSome_some]

theorem contains_addRange_last (hR : R.Lawful) (hle : fromCp ≤ toCp) :
    contains R (addRange R t fromCp toCp element) toCp = true := by
  have hfirst : (fromCp, some element) ∈ R.entries (addRange R t fromCp toCp element) := mem_addRange_first _ _ hR hle
  obtain ⟨floor, hfloor⟩ := exists_isFloor (hR.sorted _) hfirst hle
  rw [contains_of_isFloor hR hfloor]
  by_contra hnone
  have hvalue : floor.2 = none := by simpa using hnone
  have hkey := hfloor.le
  have hne : floor.1 ≠ fromCp := fun h => by
    rw [eq_of_key_eq (hR.sorted _) hfloor.mem hfirst h] at hvalue
    cases hvalue
  have hlt := lt_of_le_of_ne (hfloor.greatest _ hfirst hle) hne.symm
  have hmem := (mem_addRange_of_ne hR (by omega)).mp hfloor.mem
  obtain ⟨e, he, hafter, hle'⟩ := exists_after_gap hR hmem (isGap_iff.mpr ⟨hlt, hkey, hvalue⟩)
  exact absurd (hfloor.greatest e ((mem_addRange_of_ne hR (by omega)).mpr he) hle') (not_le.mpr hafter)

/-- A gap comes right after a code point of the class. -/
structure Segmented (t : R.Tree) : Prop where
  le_max : ∀ e ∈ R.entries t, e.1 ≤ maxCodePoint
  preceded : ∀ e ∈ R.entries t, e.2 = none → ∃ cp, e.1 = cp + 1 ∧ contains R t cp = true

theorem segmented_createTree (hR : R.Lawful) : Segmented (R := R) R.createTree where
  le_max := by simp [hR.entries_createTree]
  preceded := by simp [hR.entries_createTree]

theorem Segmented.addRange (hR : R.Lawful) (h : Segmented t) (range : Range E) :
    Segmented (addRange R t range.fromCp range.toCp range.element) where
  le_max e he := by
    by_cases hne : e.1 = range.toCp + 1
    · by_contra hmax
      -- no key is written behind the last code point
      have hold : e ∈ R.entries t := by
        unfold SonarJavascript.Regex.addRange at he
        rw [if_neg (by omega)] at he
        exact (mem_fill_of_outside hR range.le (Or.inr (by omega))).mp he
      exact hmax (h.le_max e hold)
    · rw [mem_addRange_of_ne hR hne] at he
      rcases key_of_mem_fill hR range.le he with hle | hold
      · exact hle.trans range.toCp_le
      · exact h.le_max e hold
  preceded e he hvalue := by
    by_cases hne : e.1 = range.toCp + 1
    · exact ⟨range.toCp, hne, contains_addRange_last hR range.le⟩
    · rw [mem_addRange_of_ne hR hne] at he
      have hold : e ∈ R.entries t := by
        rcases fill_cases hR t range.fromCp range.toCp range.element with ⟨-, hiff⟩ | ⟨gap, -, -, hiff⟩
        · rcases (hiff e).mp he with rfl | ⟨hold, -⟩
          · cases hvalue
          · exact hold
        · rcases (hiff e).mp he with rfl | ⟨rfl | ⟨hold, -⟩, -⟩
          · cases hvalue
          · cases hvalue
          · exact hold
      obtain ⟨cp, hcp, hcontains⟩ := h.preceded e hold hvalue
      have hmax := h.le_max e hold
      exact ⟨cp, hcp, contains_addRange_of_contains hR range.le (by omega) hcontains⟩

end Calls

section Runs

variable {ranges more : List (Range E)} {cp : ℕ}

theorem addRanges_append_singleton (range : Range E) :
    addRanges R (ranges ++ [range]) =
      addRange R (addRanges R ranges) range.fromCp range.toCp range.element := by
  simp [addRanges]

theorem segmented_addRanges (hR : R.Lawful) (ranges : List (Range E)) : Segmented (addRanges R ranges) := by
  induction ranges using List.reverseRecOn with
  | nil => exact segmented_createTree hR
  | append_singleton ranges range ih =>
    rw [addRanges_append_singleton]
    exact ih.addRange hR range

theorem exists_of_owner_addRanges (hR : R.Lawful) (hmax : cp ≤ maxCodePoint) {element : E}
    (h : owner R (addRanges R ranges) cp = some element) :
    ∃ range ∈ ranges, range.element = element ∧ range.contains cp := by
  induction ranges using List.reverseRecOn with
  | nil =>
    have hempty : owner R R.createTree cp = none := owner_eq_none_of_no_floor hR (by simp [hR.entries_createTree])
    rw [show addRanges R [] = R.createTree from rfl, hempty] at h
    cases h
  | append_singleton ranges range ih =>
    rw [addRanges_append_singleton] at h
    rcases owner_addRange _ hR range.le hmax with heq | ⟨hcontains, heq⟩
    · rw [heq] at h
      obtain ⟨range', hmem, helement⟩ := ih h
      exact ⟨range', List.mem_append_left _ hmem, helement⟩
    · rw [heq] at h
      exact ⟨range, by simp, Option.some.inj h, hcontains⟩

theorem contains_addRanges_append (hR : R.Lawful) (hmax : cp ≤ maxCodePoint)
    (h : contains R (addRanges R ranges) cp = true) : contains R (addRanges R (ranges ++ more)) cp = true := by
  induction more using List.reverseRecOn with
  | nil => rwa [List.append_nil]
  | append_singleton more range ih =>
    rw [← List.append_assoc, addRanges_append_singleton]
    exact contains_addRange_of_contains hR range.le hmax ih

theorem contains_addRanges_first (hR : R.Lawful) {range : Range E} (h : range ∈ ranges) :
    contains R (addRanges R ranges) range.fromCp = true := by
  obtain ⟨before, after, rfl⟩ := List.append_of_mem h
  rw [List.append_cons]
  refine contains_addRanges_append hR (range.le.trans range.toCp_le) ?_
  rw [addRanges_append_singleton, contains_eq_isSome, owner_addRange_first hR range.le, Option.isSome_some]

theorem contains_addRanges_of_apart (hR : R.Lawful) {range : Range E}
    (hapart : ∀ earlier ∈ ranges, ∀ cp, ¬ (earlier.contains cp ∧ range.contains cp)) (h : range.contains cp) :
    contains R (addRanges R (ranges ++ range :: more)) cp = true := by
  rw [List.append_cons]
  refine contains_addRanges_append hR (h.2.trans range.toCp_le) ?_
  rw [addRanges_append_singleton]
  -- a gap in the range would come right after a code point of an earlier range
  have hgaps : ∀ gap ∈ R.entries (addRanges R ranges), isGap range.fromCp range.toCp gap = true → False := by
    intro gap hmem hgap
    obtain ⟨hlt, hle, hvalue⟩ := isGap_iff.mp hgap
    obtain ⟨before, hkey, hbefore⟩ := (segmented_addRanges hR ranges).preceded gap hmem hvalue
    rw [contains_eq_isSome, Option.isSome_iff_exists] at hbefore
    obtain ⟨element, howner⟩ := hbefore
    have hto := range.toCp_le
    obtain ⟨earlier, hearlier, -, hcontains⟩ := exists_of_owner_addRanges hR (show before ≤ maxCodePoint by omega) howner
    exact hapart earlier hearlier before ⟨hcontains, by omega, by omega⟩
  exact contains_addRange_inside hR h.1 h.2 fun gap hmem _ _ hgap _ => (hgaps gap hmem hgap).elim

end Runs

/-! ### Segments -/

section Segments

variable {contents that : R.Tree} {cp : ℕ}

/-- What `forEach` promises. -/
def Visits (R : OrderedTree ℕ (Option E)) (forEach : R.Tree → ℕ → ℕ → List (ℕ × Option E)) : Prop :=
  ∀ t fromCp toCp e, e ∈ forEach t fromCp toCp ↔ e ∈ R.entries t ∧ fromCp ≤ e.1 ∧ e.1 < toCp

/-- The entries of a list between two keys. -/
def entriesBetween (t : SortedEntries ℕ (Option E)) (fromCp toCp : ℕ) : List (ℕ × Option E) :=
  t.list.filter fun e => decide (fromCp ≤ e.1) && decide (e.1 < toCp)

theorem visits_entriesBetween : Visits (sortedEntries ℕ (Option E)) entriesBetween := fun t fromCp toCp e => by
  unfold entriesBetween
  rw [List.mem_filter, Bool.and_eq_true, decide_eq_true_eq, decide_eq_true_eq]
  exact Iff.rfl

theorem isRangeEmpty_eq_false_iff (hvisits : Visits R forEach) {fromCp toCp : ℕ} :
    isRangeEmpty R forEach contents fromCp toCp = false ↔
      ∃ e ∈ R.entries contents, fromCp ≤ e.1 ∧ e.1 < toCp := by
  unfold isRangeEmpty
  rw [List.isEmpty_eq_false_iff, ← List.length_pos_iff, List.length_pos_iff_exists_mem]
  exact exists_congr fun e => hvisits contents fromCp toCp e

theorem hasEntryBetween_iff (hvisits : Visits R forEach) {fromCp toCp : ℕ} :
    hasEntryBetween R forEach contents fromCp toCp = true ↔
      contains R contents fromCp = true ∨ ∃ e ∈ R.entries contents, fromCp < e.1 ∧ e.1 ≤ toCp := by
  unfold hasEntryBetween
  rw [Bool.or_eq_true, Bool.not_eq_true', isRangeEmpty_eq_false_iff hvisits]
  simp only [Nat.succ_le_iff, Nat.lt_succ_iff]
  exact Iff.rfl

/-- An entry means a code point, since a gap comes right after one. -/
theorem exists_contains_of_entry (hR : R.Lawful) (h : Segmented contents) {fromCp toCp : ℕ}
    {e : ℕ × Option E} (he : e ∈ R.entries contents) (hlt : fromCp < e.1) (hle : e.1 ≤ toCp) :
    ∃ cp, fromCp ≤ cp ∧ cp ≤ toCp ∧ contains R contents cp = true := by
  obtain ⟨key, value⟩ := e
  cases value with
  | none =>
    obtain ⟨cp, hcp, hcontains⟩ := h.preceded _ he rfl
    dsimp only at hcp hlt hle
    exact ⟨cp, by omega, by omega, hcontains⟩
  | some value =>
    refine ⟨key, hlt.le, hle, ?_⟩
    rw [contains_of_isFloor hR (e := (key, some value)) ⟨he, le_rfl, fun _ _ h => h⟩, Option.isSome_some]

theorem exists_contains_of_hasEntryBetween (hR : R.Lawful) (hvisits : Visits R forEach) (h : Segmented contents)
    {fromCp toCp : ℕ} (hle : fromCp ≤ toCp) (hentry : hasEntryBetween R forEach contents fromCp toCp = true) :
    ∃ cp, fromCp ≤ cp ∧ cp ≤ toCp ∧ contains R contents cp = true := by
  rcases (hasEntryBetween_iff hvisits).mp hentry with hcontains | ⟨e, he, hlt, hle'⟩
  · exact ⟨fromCp, le_rfl, hle, hcontains⟩
  · exact exists_contains_of_entry hR h he hlt hle'

theorem hasEntryBetween_of_contains (hR : R.Lawful) (hvisits : Visits R forEach) {fromCp toCp : ℕ}
    (hfrom : fromCp ≤ cp) (hto : cp ≤ toCp) (hcontains : contains R contents cp = true) :
    hasEntryBetween R forEach contents fromCp toCp = true := by
  rw [hasEntryBetween_iff hvisits]
  obtain ⟨k, value, hfloor⟩ := (contains_iff hR).mp hcontains
  by_cases hk : k ≤ fromCp
  · refine Or.inl ((contains_iff hR).mpr ⟨k, value, hfloor.mem, hk, fun e he hle => ?_⟩)
    exact hfloor.greatest e he (hle.trans hfrom)
  · exact Or.inr ⟨(k, some value), hfloor.mem, not_le.mp hk, hfloor.le.trans hto⟩

/-- The element has a segment that the further class has an entry in, as far as the code sees. -/
theorem mem_findIntersections_iff (hR : R.Lawful) {value : E} :
    value ∈ findIntersections R forEach contents that ↔
      ∃ before key rest, R.entries that = before ++ (key, some value) :: rest ∧
        hasEntryBetween R forEach contents key (segmentEnd rest.head?) = true := by
  have hloop : ∀ n i, (R.entries that).length ≤ i + n →
      (value ∈ intersectionsFrom R forEach contents n (R.next^[i] (R.begin that)) ↔
        ∃ before key rest, (R.entries that).drop i = before ++ (key, some value) :: rest ∧
          hasEntryBetween R forEach contents key (segmentEnd rest.head?) = true) := by
    intro n
    induction n with
    | zero =>
      intro i hi
      rw [List.drop_eq_nil_of_le (by omega)]
      simp [intersectionsFrom]
    | succ n ih =>
      intro i hi
      unfold intersectionsFrom
      rw [hR.entry_walk that i, List.drop_eq_getElem?_toList_append]
      cases hget : (R.entries that)[i]? with
      | none =>
        rw [List.drop_eq_nil_of_le (by have := List.getElem?_eq_none_iff.mp hget; omega)]
        simp
      | some entry =>
        obtain ⟨key, value'⟩ := entry
        dsimp only
        rw [List.mem_append, ← Function.iterate_succ_apply' R.next i, ih (i + 1) (by omega),
          hR.entry_walk that (i + 1), ← List.head?_drop]
        constructor
        · rintro (hmem | ⟨before, k, rest, heq, hentry⟩)
          · obtain ⟨hvalue, hentry⟩ := List.mem_filter.mp hmem
            exact ⟨[], key, (R.entries that).drop (i + 1), by simpa using Option.mem_toList.mp hvalue, hentry⟩
          · exact ⟨(key, value') :: before, k, rest, by rw [heq]; rfl, hentry⟩
        · rintro ⟨before, k, rest, heq, hentry⟩
          rcases before with _ | ⟨first, before⟩
          · obtain ⟨hfirst, rfl⟩ := List.cons.inj heq
            obtain ⟨rfl, rfl⟩ := Prod.mk.inj hfirst
            exact Or.inl (by simpa using hentry)
          · obtain ⟨-, heq⟩ := List.cons.inj heq
            exact Or.inr ⟨before, k, rest, heq, hentry⟩
  exact hloop (R.length that) 0 (by rw [hR.length_eq]; omega)

theorem key_lt_of_split (hR : R.Lawful) {before rest : List (ℕ × Option E)} {e e' : ℕ × Option E}
    (hsplit : R.entries that = before ++ e :: e' :: rest) : e.1 < e'.1 := by
  have hsorted := hR.sorted that
  rw [hsplit] at hsorted
  exact (List.pairwise_cons.mp (List.pairwise_append.mp hsorted).2.1).1 e' List.mem_cons_self

theorem exists_segment (hR : R.Lawful) {value : E} (h : owner R that cp = some value) :
    ∃ before key rest, R.entries that = before ++ (key, some value) :: rest ∧ key ≤ cp ∧ ∀ e ∈ rest.head?, cp < e.1 := by
  obtain ⟨key, hfloor⟩ := (owner_eq_some_iff hR).mp h
  obtain ⟨before, rest, hsplit⟩ := List.append_of_mem hfloor.mem
  refine ⟨before, key, rest, hsplit, hfloor.le, fun e he => not_le.mp fun hle => ?_⟩
  have hmem := List.mem_of_mem_head? he
  have hsorted := hR.sorted that
  rw [hsplit] at hsorted
  have hlt := (List.pairwise_cons.mp (List.pairwise_append.mp hsorted).2.1).1 e hmem
  exact absurd (hfloor.greatest e (by rw [hsplit]; simp [hmem]) hle) (not_le.mpr hlt)

theorem owner_of_segment (hR : R.Lawful) {value : E} {before rest : List (ℕ × Option E)} {key : ℕ}
    (hsplit : R.entries that = before ++ (key, some value) :: rest) (hle : key ≤ cp)
    (hlt : ∀ e ∈ rest.head?, cp < e.1) : owner R that cp = some value := by
  refine owner_of_isFloor hR (e := (key, some value)) ⟨by rw [hsplit]; simp, hle, fun e he hecp => ?_⟩
  have hsorted := hR.sorted that
  rw [hsplit] at hsorted he
  obtain ⟨-, hrest, hbefore⟩ := List.pairwise_append.mp hsorted
  rcases List.mem_append.mp he with he | he
  · exact (hbefore e he _ List.mem_cons_self).le
  · rcases List.mem_cons.mp he with rfl | he
    · exact le_rfl
    · rcases rest with _ | ⟨next, rest⟩
      · cases he
      · have hnext := hlt next rfl
        rcases List.mem_cons.mp he with rfl | he
        · omega
        · have := (List.pairwise_cons.mp (List.pairwise_cons.mp hrest).2).1 e he
          omega

theorem owner_of_entry (hR : R.Lawful) {value : E} (h : (cp, some value) ∈ R.entries that) :
    owner R that cp = some value :=
  owner_of_isFloor hR (e := (cp, some value)) ⟨h, le_rfl, fun _ _ h => h⟩

/-- A code point of both classes that belongs to the element. -/
def Shares (R : OrderedTree ℕ (Option E)) (contents that : R.Tree) (value : E) : Prop :=
  ∃ cp ≤ maxCodePoint, owner R that cp = some value ∧ contains R contents cp = true

theorem mem_findIntersections_of_shares (hR : R.Lawful) (hvisits : Visits R forEach) {value : E}
    (h : Shares R contents that value) : value ∈ findIntersections R forEach contents that := by
  obtain ⟨cp, hmax, howner, hcontains⟩ := h
  obtain ⟨before, key, rest, hsplit, hle, hlt⟩ := exists_segment hR howner
  refine (mem_findIntersections_iff hR).mpr ⟨before, key, rest, hsplit, ?_⟩
  refine hasEntryBetween_of_contains hR hvisits hle ?_ hcontains
  rcases rest with _ | ⟨⟨next, value'⟩, rest⟩
  · exact hmax
  · have := hlt _ rfl
    simp only [List.head?_cons, segmentEnd]
    split_ifs <;> omega

/-- What is found without a code point in both classes is found next to a segment of another element that begins
where one of the further class does. -/
theorem shares_or_neighbour (hR : R.Lawful) (hvisits : Visits R forEach) (hcontents : Segmented contents)
    (hthat : Segmented that) {value : E} (h : value ∈ findIntersections R forEach contents that) :
    Shares R contents that value ∨ ∃ before key next value' value'' rest,
      R.entries that = before ++ (key, some value) :: (next, some value') :: rest ∧
        (next, some value'') ∈ R.entries contents := by
  obtain ⟨before, key, rest, hsplit, hentry⟩ := (mem_findIntersections_iff hR).mp h
  have hshares : ∀ toCp, key ≤ toCp → toCp ≤ maxCodePoint → (∀ e ∈ rest.head?, toCp < e.1) →
      hasEntryBetween R forEach contents key toCp = true → Shares R contents that value := by
    intro toCp hle hmax hlt hentry
    obtain ⟨cp, hfrom, hto, hcontains⟩ := exists_contains_of_hasEntryBetween hR hvisits hcontents hle hentry
    exact ⟨cp, hto.trans hmax, owner_of_segment hR hsplit hfrom fun e he => hto.trans_lt (hlt e he), hcontains⟩
  have hkey : key ≤ maxCodePoint := hthat.le_max (key, some value) (by rw [hsplit]; simp)
  rcases rest with _ | ⟨⟨next, value'⟩, rest⟩
  · exact Or.inl (hshares maxCodePoint hkey le_rfl nofun hentry)
  have hlt : key < next := key_lt_of_split hR hsplit
  have hnext : next ≤ maxCodePoint := hthat.le_max (next, value') (by rw [hsplit]; simp)
  have hbefore : ∀ toCp, toCp < next → ∀ e ∈ ((next, value') :: rest).head?, toCp < e.1 := fun toCp hto e he => by
    obtain rfl := Option.some.inj he
    exact hto
  cases value' with
  | none => exact Or.inl (hshares (next - 1) (by omega) (by omega) (hbefore _ (by omega)) hentry)
  | some value' =>
    rcases (hasEntryBetween_iff hvisits).mp hentry with hcontains | ⟨e, he, hgt, hle⟩
    · exact Or.inl ⟨key, hkey, owner_of_segment hR hsplit le_rfl (hbefore key hlt), hcontains⟩
    · have hle : e.1 ≤ next := hle
      rcases hle.lt_or_eq with hlt' | heq
      · refine Or.inl (hshares (next - 1) (by omega) (by omega) (hbefore _ (by omega)) ?_)
        exact (hasEntryBetween_iff hvisits).mpr (Or.inr ⟨e, he, hgt, by omega⟩)
      · obtain ⟨_, _ | value''⟩ := e
        · -- the gap comes right after a code point, which is still in the segment
          obtain ⟨cp, hcp, hcontains⟩ := hcontents.preceded _ he rfl
          dsimp only at hcp hgt heq
          exact Or.inl ⟨cp, by omega, owner_of_segment hR hsplit (by omega) (hbefore cp (by omega)), hcontains⟩
        · obtain rfl : _ = next := heq
          exact Or.inr ⟨before, key, _, value', value'', rest, hsplit, he⟩

theorem mem_findIntersections_of_neighbour (hR : R.Lawful) (hvisits : Visits R forEach)
    {before rest : List (ℕ × Option E)} {key next : ℕ} {value value' : E} {value'' : Option E}
    (hsplit : R.entries that = before ++ (key, some value) :: (next, some value') :: rest)
    (hentry : (next, value'') ∈ R.entries contents) : value ∈ findIntersections R forEach contents that := by
  refine (mem_findIntersections_iff hR).mpr ⟨before, key, _, hsplit, (hasEntryBetween_iff hvisits).mpr (Or.inr ?_)⟩
  exact ⟨_, hentry, key_lt_of_split hR hsplit, le_rfl⟩

theorem mem_of_owner_ne (hR : R.Lawful) {value : E} (h : owner R that (cp + 1) = some value)
    (hne : owner R that cp ≠ some value) : (cp + 1, some value) ∈ R.entries that := by
  obtain ⟨key, hfloor⟩ := (owner_eq_some_iff hR).mp h
  have hkey : key = cp + 1 := by
    by_contra hlt
    refine hne (owner_of_isFloor hR (e := (key, some value)) ⟨hfloor.mem, ?_, fun e he hle => ?_⟩)
    · have := hfloor.le
      dsimp only at this ⊢
      omega
    · exact hfloor.greatest e he (by omega)
  exact hkey ▸ hfloor.mem

theorem exists_neighbour (hR : R.Lawful) {value value' : E} (h : owner R that cp = some value)
    (h' : owner R that (cp + 1) = some value') (hne : value ≠ value') :
    ∃ before key rest, R.entries that = before ++ (key, some value) :: (cp + 1, some value') :: rest := by
  obtain ⟨before, key, rest, hsplit, hle, hlt⟩ := exists_segment hR h
  have hmem := mem_of_owner_ne hR h' fun heq => hne (Option.some.inj (h.symm.trans heq))
  have hsorted := hR.sorted that
  rw [hsplit] at hmem hsorted
  obtain ⟨-, hrest, hbefore⟩ := List.pairwise_append.mp hsorted
  rcases List.mem_append.mp hmem with hmem | hmem
  · have hkey : cp + 1 < key := hbefore _ hmem _ List.mem_cons_self
    omega
  rcases List.mem_cons.mp hmem with heq | hmem
  · have hkey : cp + 1 = key := congrArg Prod.fst heq
    omega
  rcases rest with _ | ⟨next, rest⟩
  · cases hmem
  have hnext := hlt next rfl
  rcases List.mem_cons.mp hmem with heq | hmem
  · exact ⟨before, key, rest, by rw [hsplit, heq]⟩
  · have hkey : next.1 < cp + 1 := (List.pairwise_cons.mp (List.pairwise_cons.mp hrest).2).1 _ hmem
    omega

/-! ### Exactness -/

/-- `findIntersections` gives an element exactly when it has a code point in both classes. -/
def Exact (R : OrderedTree ℕ (Option E)) (forEach : R.Tree → ℕ → ℕ → List (ℕ × Option E)) (contents that : R.Tree) :
    Prop :=
  ∀ value, value ∈ findIntersections R forEach contents that ↔ Shares R contents that value

/-- An element with no code point in both classes has no segment right before one of another element, at whose first
code point a segment of the further class begins. -/
def NoNeighbour (R : OrderedTree ℕ (Option E)) (contents that : R.Tree) : Prop :=
  ∀ before key value next value' value'' rest,
    R.entries that = before ++ (key, some value) :: (next, some value') :: rest →
      (next, some value'') ∈ R.entries contents → Shares R contents that value

theorem exact_intersections_iff (hR : R.Lawful) (hvisits : Visits R forEach) (hcontents : Segmented contents)
    (hthat : Segmented that) : Exact R forEach contents that ↔ NoNeighbour R contents that := by
  constructor
  · intro h before key value next value' value'' rest hsplit hentry
    exact (h value).mp (mem_findIntersections_of_neighbour hR hvisits hsplit hentry)
  · intro h value
    refine ⟨fun hmem => ?_, mem_findIntersections_of_shares hR hvisits⟩
    rcases shares_or_neighbour hR hvisits hcontents hthat hmem with hshares | ⟨before, key, next, value', value'', rest,
      hsplit, hentry⟩
    · exact hshares
    · exact h before key value next value' value'' rest hsplit hentry

end Segments

end SonarJavascript.Regex
