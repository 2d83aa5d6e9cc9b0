import Mathlib.Data.List.Induction
import SonarJavascript.Lib.OrderedTree

/-!
# Simplified regex character classes

`helpers/regex/simplified-regex-character-class.ts`: a character class as an ordered map of code points.
An entry stands for the code points from its key up to the next key; a value that is not defined is a
gap. `addRange` fills the gaps of a range in a loop whose updates all start from the version the
iterator was opened on, so that only the last of them stays: `addRange_iff` says that the range is added
exactly when there is at most one gap to fill.
-/

namespace SonarJavascript.Regex

open OrderedTree

def maxCodePoint : ℕ := 0x10ffff

variable {E : Type} (R : OrderedTree ℕ (Option E))

/-- The loop over the entries. `iterator` walks one version, `contents` is the field. -/
def fillGaps (fromCp toCp : ℕ) (element : E) : ℕ → R.Iterator → R.Tree → R.Tree
  | 0, _, contents => contents
  | n + 1, iterator, contents =>
    match R.entry iterator with
    | none => contents
    | some (key, value) =>
      fillGaps fromCp toCp element n (R.next iterator)
        (if fromCp < key ∧ key ≤ toCp ∧ value.isNone then R.update iterator (some element) else contents)

/-- What the first two assignments and the loop make of the map. The loop is over when the iterator has
passed the last entry. -/
def fill (contents : R.Tree) (fromCp toCp : ℕ) (element : E) : R.Tree :=
  let contents := R.put fromCp (some element) contents
  fillGaps R fromCp toCp element (R.length contents) (R.begin contents) contents

/-- The element the code point `next` belonged to when its entry is the one of `toCp`. -/
def oldValue (contents : R.Tree) (toCp next : ℕ) : Option E :=
  match R.entry (R.le contents toCp) with
  | some (key, some value) =>
    match R.entry (R.gt contents key) with
    | none => some value
    | some (oldEnd, _) => if next < oldEnd then some value else none
  | _ => none

def addRange (contents : R.Tree) (fromCp toCp : ℕ) (element : E) : R.Tree :=
  let filled := fill R contents fromCp toCp element
  let next := toCp + 1
  if next ≤ maxCodePoint then
    match oldValue R contents toCp next with
    | some value => R.put next (some value) filled
    | none => if (R.entry (R.find filled next)).isNone then R.put next none filled else filled
  else filled

/-- The element the code point belongs to: `contents.le(codePoint).value`. -/
def owner (contents : R.Tree) (codePoint : ℕ) : Option E := (R.entry (R.le contents codePoint)).bind Prod.snd

/-- The code point is in the class: `contents.le(codePoint).value` is there. -/
def contains (contents : R.Tree) (codePoint : ℕ) : Bool :=
  ((R.entry (R.le contents codePoint)).bind Prod.snd).isSome

/-- A call of `addRange`. -/
structure Range (E : Type) where
  fromCp : ℕ
  toCp : ℕ
  element : E
  le : fromCp ≤ toCp
  toCp_le : toCp ≤ maxCodePoint

def Range.contains (range : Range E) (codePoint : ℕ) : Prop :=
  range.fromCp ≤ codePoint ∧ codePoint ≤ range.toCp

def addRanges (ranges : List (Range E)) : R.Tree :=
  ranges.foldl (fun contents range => addRange R contents range.fromCp range.toCp range.element) R.createTree

/-- An entry in the range, after its first code point, that is a gap. -/
def isGap (fromCp toCp : ℕ) (entry : ℕ × Option E) : Bool :=
  decide (fromCp < entry.1) && decide (entry.1 ≤ toCp) && entry.2.isNone

def gaps (contents : R.Tree) (fromCp toCp : ℕ) : List (ℕ × Option E) :=
  (R.entries contents).filter (isGap fromCp toCp)

variable {R}

/-! ### The loop -/

theorem isGap_iff {fromCp toCp : ℕ} {entry : ℕ × Option E} :
    isGap fromCp toCp entry = true ↔ fromCp < entry.1 ∧ entry.1 ≤ toCp ∧ entry.2 = none := by
  simp [isGap, and_assoc]

/-- Each update starts from the version of the iterator, so the last gap is the only one filled. -/
theorem mem_fillGaps (hR : R.Lawful) (fromCp toCp : ℕ) (element : E) (t : R.Tree) (n i : ℕ) (c : R.Tree)
    (hn : (R.entries t).length ≤ i + n) (e : ℕ × Option E) :
    e ∈ R.entries (fillGaps R fromCp toCp element n (R.next^[i] (R.begin t)) c) ↔
      match ((R.entries t).drop i).reverse.find? (isGap fromCp toCp) with
      | none => e ∈ R.entries c
      | some gap => e = (gap.1, some element) ∨ (e ∈ R.entries t ∧ e.1 ≠ gap.1) := by
  induction n generalizing i c with
  | zero =>
    rw [List.drop_eq_nil_of_le (by omega)]
    exact Iff.rfl
  | succ n ih =>
    have hentry := hR.entry_walk t i
    unfold fillGaps
    rw [List.drop_eq_getElem?_toList_append, ← hentry]
    cases hit : R.entry (R.next^[i] (R.begin t)) with
    | none =>
      rw [hit] at hentry
      have := List.getElem?_eq_none_iff.mp hentry.symm
      rw [List.drop_eq_nil_of_le (by omega)]
      exact Iff.rfl
    | some entry =>
      obtain ⟨key, value⟩ := entry
      dsimp only
      rw [← Function.iterate_succ_apply' R.next i, ih (i + 1) _ (by omega), Option.toList_some,
        List.singleton_append, List.reverse_cons, List.find?_append]
      cases hrest : ((R.entries t).drop (i + 1)).reverse.find? (isGap fromCp toCp) with
      | some gap => exact Iff.rfl
      | none =>
        rw [Option.none_or]
        by_cases hgap : isGap fromCp toCp (key, value) = true
        · have hgap' := isGap_iff.mp hgap
          rw [List.find?_cons_of_pos hgap, if_pos ⟨hgap'.1, hgap'.2.1, by simpa using hgap'.2.2⟩]
          dsimp only
          rw [hR.mem_update _ key value (some element) e hit, hR.version_walk]
        · rw [List.find?_cons_of_neg hgap, if_neg]
          · exact Iff.rfl
          · intro h
            exact hgap (isGap_iff.mpr ⟨h.1, h.2.1, by simpa using h.2.2⟩)

/-- The loop fills no gap because there is none, or it fills the last one. -/
theorem fill_cases (hR : R.Lawful) (t : R.Tree) (fromCp toCp : ℕ) (element : E) :
    ((∀ gap ∈ R.entries t, ¬ isGap fromCp toCp gap = true) ∧
      ∀ e, e ∈ R.entries (fill R t fromCp toCp element) ↔
        e = (fromCp, some element) ∨ (e ∈ R.entries t ∧ e.1 ≠ fromCp)) ∨
    ∃ gap ∈ R.entries t, (isGap fromCp toCp gap = true ∧
        ∀ gap' ∈ R.entries t, isGap fromCp toCp gap' = true → gap'.1 ≤ gap.1) ∧
      ∀ e, e ∈ R.entries (fill R t fromCp toCp element) ↔ e = (gap.1, some element) ∨
        ((e = (fromCp, some element) ∨ (e ∈ R.entries t ∧ e.1 ≠ fromCp)) ∧ e.1 ≠ gap.1) := by
  have hput := hR.mem_put t fromCp (some element)
  have hloop := fun e => mem_fillGaps hR fromCp toCp element
    (R.put fromCp (some element) t) (R.length (R.put fromCp (some element) t)) 0
    (R.put fromCp (some element) t) (by rw [hR.length_eq]; omega) e
  simp only [List.drop_zero, Function.iterate_zero, id] at hloop
  -- the entry written first is not a gap
  have hgap : ∀ e, isGap fromCp toCp e = true →
      (e ∈ R.entries (R.put fromCp (some element) t) ↔ e ∈ R.entries t) := by
    intro e he
    obtain ⟨hlt, -, -⟩ := isGap_iff.mp he
    rw [hput]
    constructor
    · rintro (rfl | h)
      · exact absurd hlt (lt_irrefl _)
      · exact h.1
    · exact fun h => Or.inr ⟨h, hlt.ne'⟩
  unfold fill
  cases hf : (R.entries (R.put fromCp (some element) t)).reverse.find? (isGap fromCp toCp) with
  | none =>
    left
    simp only [hf] at hloop
    refine ⟨fun gap hmem hg => ?_, fun e => (hloop e).trans (hput e)⟩
    exact List.find?_eq_none.mp hf gap (List.mem_reverse.mpr ((hgap gap hg).mpr hmem)) hg
  | some gap =>
    right
    simp only [hf] at hloop
    obtain ⟨hg, after, before, hsplit, hafter⟩ := List.find?_eq_some_iff_append.mp hf
    have hmem := List.mem_reverse.mp (List.mem_of_find?_eq_some hf)
    refine ⟨gap, (hgap gap hg).mp hmem, ⟨hg, fun gap' hmem' hg' => ?_⟩, fun e => (hloop e).trans ?_⟩
    · have hsorted := List.pairwise_reverse.mpr (hR.sorted (R.put fromCp (some element) t))
      have hin := List.mem_reverse.mpr ((hgap gap' hg').mpr hmem')
      rw [hsplit] at hsorted hin
      rcases List.mem_append.mp hin with hin | hin
      · simpa [hg'] using hafter gap' hin
      · rcases List.mem_cons.mp hin with rfl | hin
        · exact le_rfl
        · exact ((List.pairwise_cons.mp (List.pairwise_append.mp hsorted).2.1).1 gap' hin).le
    · rw [hput]

/-! ### The entries after a call -/

section Step

variable {t : R.Tree} {fromCp toCp : ℕ} {element : E} {e : ℕ × Option E} {cp : ℕ}

theorem contains_eq_isSome : contains R t cp = (owner R t cp).isSome := rfl

theorem owner_of_isFloor (hR : R.Lawful) (h : IsFloor (R.entries t) cp e) : owner R t cp = e.2 := by
  unfold owner
  rw [hR.entry_le, (reverse_find?_eq_some_iff (hR.sorted t)).mpr h]
  rfl

theorem contains_of_isFloor (hR : R.Lawful) (h : IsFloor (R.entries t) cp e) :
    contains R t cp = e.2.isSome := by
  rw [contains_eq_isSome, owner_of_isFloor hR h]

theorem owner_eq_some_iff (hR : R.Lawful) {value : E} :
    owner R t cp = some value ↔ ∃ k, IsFloor (R.entries t) cp (k, some value) := by
  refine ⟨fun h => ?_, fun ⟨k, h⟩ => owner_of_isFloor hR h⟩
  unfold owner at h
  rw [hR.entry_le] at h
  obtain ⟨⟨k, value'⟩, hfind, hvalue⟩ := Option.bind_eq_some_iff.mp h
  obtain rfl : value' = some value := hvalue
  exact ⟨k, (reverse_find?_eq_some_iff (hR.sorted t)).mp hfind⟩

theorem contains_iff (hR : R.Lawful) :
    contains R t cp = true ↔ ∃ k value, IsFloor (R.entries t) cp (k, some value) := by
  rw [contains_eq_isSome, Option.isSome_iff_exists, exists_comm]
  exact exists_congr fun value => owner_eq_some_iff hR

theorem owner_eq_none_of_no_floor (hR : R.Lawful) (h : ∀ e ∈ R.entries t, ¬ e.1 ≤ cp) : owner R t cp = none := by
  by_contra hne
  obtain ⟨value, hvalue⟩ := Option.ne_none_iff_exists'.mp hne
  obtain ⟨k, hfloor⟩ := (owner_eq_some_iff hR).mp hvalue
  exact h _ hfloor.mem hfloor.le

theorem owner_congr (hR : R.Lawful) {t' : R.Tree}
    (hmem : ∀ e : ℕ × Option E, e.1 ≤ cp → (e ∈ R.entries t ↔ e ∈ R.entries t')) : owner R t cp = owner R t' cp := by
  refine Option.ext fun value => ?_
  rw [owner_eq_some_iff hR, owner_eq_some_iff hR]
  exact exists_congr fun k => ⟨fun h => h.congr hmem, fun h => h.congr fun e he => (hmem e he).symm⟩

theorem owner_eq_of_no_key (hR : R.Lawful) {cp' : ℕ} (hle : cp ≤ cp')
    (hno : ∀ e ∈ R.entries t, ¬ (cp < e.1 ∧ e.1 ≤ cp')) : owner R t cp' = owner R t cp := by
  have hkey : ∀ e ∈ R.entries t, e.1 ≤ cp' → e.1 ≤ cp := fun e he h => not_lt.mp fun hlt => hno e he ⟨hlt, h⟩
  refine Option.ext fun value => ?_
  rw [owner_eq_some_iff hR, owner_eq_some_iff hR]
  refine exists_congr fun k => ⟨fun h => ?_, fun h => ?_⟩
  · exact ⟨h.mem, hkey _ h.mem h.le, fun e he hecp => h.greatest e he (hecp.trans hle)⟩
  · exact ⟨h.mem, h.le.trans hle, fun e he hecp => h.greatest e he (hkey e he hecp)⟩

theorem contains_eq_false_of_no_floor (hR : R.Lawful) (h : ∀ e ∈ R.entries t, ¬ e.1 ≤ cp) :
    contains R t cp = false := by
  rw [contains_eq_isSome, owner_eq_none_of_no_floor hR h]
  rfl

theorem key_of_mem_fill (hR : R.Lawful) (hle : fromCp ≤ toCp)
    (he : e ∈ R.entries (fill R t fromCp toCp element)) : e.1 ≤ toCp ∨ e ∈ R.entries t := by
  rcases fill_cases hR t fromCp toCp element with ⟨-, hmem⟩ | ⟨gap, -, ⟨hgap, -⟩, hmem⟩
  · rcases (hmem e).mp he with rfl | h
    · exact Or.inl hle
    · exact Or.inr h.1
  · rcases (hmem e).mp he with rfl | ⟨rfl | h, -⟩
    · exact Or.inl (isGap_iff.mp hgap).2.1
    · exact Or.inl hle
    · exact Or.inr h.1

theorem mem_fill_of_outside (hR : R.Lawful) (hle : fromCp ≤ toCp) (h : e.1 < fromCp ∨ toCp < e.1) :
    e ∈ R.entries (fill R t fromCp toCp element) ↔ e ∈ R.entries t := by
  have hfrom : e ≠ (fromCp, some element) := by rintro rfl; rcases h with h | h <;> dsimp at h <;> omega
  have hkey : e.1 ≠ fromCp := by omega
  rcases fill_cases hR t fromCp toCp element with ⟨-, hmem⟩ | ⟨gap, -, ⟨hgap, -⟩, hmem⟩
  · rw [hmem]
    exact ⟨fun h => (h.resolve_left hfrom).1, fun h => Or.inr ⟨h, hkey⟩⟩
  · obtain ⟨hlt, hle', -⟩ := isGap_iff.mp hgap
    have hkey' : e.1 ≠ gap.1 := by omega
    rw [hmem]
    constructor
    · rintro (rfl | ⟨h | h, -⟩)
      · exact absurd rfl hkey'
      · exact absurd h hfrom
      · exact h.1
    · exact fun h => Or.inr ⟨Or.inr ⟨h, hkey⟩, hkey'⟩

theorem mem_addRange_of_ne (hR : R.Lawful) (h : e.1 ≠ toCp + 1) :
    e ∈ R.entries (addRange R t fromCp toCp element) ↔ e ∈ R.entries (fill R t fromCp toCp element) := by
  have hput : ∀ value, e ∈ R.entries (R.put (toCp + 1) value (fill R t fromCp toCp element)) ↔
      e ∈ R.entries (fill R t fromCp toCp element) := by
    intro value
    rw [hR.mem_put]
    constructor
    · rintro (rfl | h')
      · exact absurd rfl h
      · exact h'.1
    · exact fun h' => Or.inr ⟨h', h⟩
  unfold addRange
  dsimp only
  cases oldValue R t toCp (toCp + 1) with
  | some value =>
    dsimp only
    split_ifs
    · exact hput _
    · exact Iff.rfl
  | none =>
    dsimp only
    split_ifs
    · exact hput _
    · exact Iff.rfl
    · exact Iff.rfl

theorem owner_put (hR : R.Lawful) (key : ℕ) (value : Option E) :
    owner R (R.put key value t) cp =
      if key ≤ cp ∧ ∀ e ∈ R.entries t, ¬ (key < e.1 ∧ e.1 ≤ cp) then value else owner R t cp := by
  have hmem := hR.mem_put t key value
  split_ifs with h
  · refine owner_of_isFloor hR (e := (key, value)) ⟨(hmem _).mpr (Or.inl rfl), h.1, fun e he hle => ?_⟩
    rcases (hmem e).mp he with rfl | ⟨he, -⟩
    · exact le_rfl
    · exact not_lt.mp fun hgt => h.2 e he ⟨hgt, hle⟩
  · rcases Nat.lt_or_ge cp key with hlt | hge
    · refine owner_congr hR fun e he => ?_
      rw [hmem]
      constructor
      · rintro (rfl | h)
        · exact absurd he (not_le.mpr hlt)
        · exact h.1
      · exact fun h => Or.inr ⟨h, by omega⟩
    · obtain ⟨e, he, hlt, hle⟩ : ∃ e ∈ R.entries t, key < e.1 ∧ e.1 ≤ cp := by
        by_contra hno
        exact h ⟨hge, fun e he hboth => hno ⟨e, he, hboth⟩⟩
      obtain ⟨floor, hfloor⟩ := exists_isFloor (hR.sorted t) he hle
      have hkey : key < floor.1 := hlt.trans_le (hfloor.greatest e he hle)
      rw [owner_of_isFloor hR hfloor]
      refine owner_of_isFloor hR ⟨(hmem _).mpr (Or.inr ⟨hfloor.mem, hkey.ne'⟩), hfloor.le, fun e' he' hle' => ?_⟩
      rcases (hmem e').mp he' with rfl | ⟨he', -⟩
      · exact hkey.le
      · exact hfloor.greatest e' he' hle'

/-! ### Before, in and after the range -/

theorem owner_addRange_before (hR : R.Lawful) (hle : fromCp ≤ toCp) (hcp : cp < fromCp) :
    owner R (addRange R t fromCp toCp element) cp = owner R t cp := by
  refine owner_congr hR fun e he => ?_
  rw [mem_addRange_of_ne hR (by omega), mem_fill_of_outside hR hle (Or.inl (by omega))]

theorem contains_addRange_before (hR : R.Lawful) (hle : fromCp ≤ toCp) (hcp : cp < fromCp) :
    contains R (addRange R t fromCp toCp element) cp = contains R t cp := by
  rw [contains_eq_isSome, contains_eq_isSome, owner_addRange_before hR hle hcp]

/-- In the range the class contains a code point unless a gap is left at or below it. -/
theorem contains_addRange_inside (hR : R.Lawful) (hcp : fromCp ≤ cp) (hcp' : cp ≤ toCp)
    (hgaps : ∀ gap ∈ R.entries t, ∀ gap' ∈ R.entries t, isGap fromCp toCp gap = true →
      isGap fromCp toCp gap' = true → gap = gap') :
    contains R (addRange R t fromCp toCp element) cp = true := by
  have hfirst : (fromCp, some element) ∈ R.entries (addRange R t fromCp toCp element) := by
    rw [mem_addRange_of_ne hR (by dsimp only; omega)]
    rcases fill_cases hR t fromCp toCp element with ⟨-, hmem⟩ | ⟨gap, -, ⟨hgap, -⟩, hmem⟩
    · exact (hmem _).mpr (Or.inl rfl)
    · exact (hmem _).mpr (Or.inr ⟨Or.inl rfl, (isGap_iff.mp hgap).1.ne⟩)
  obtain ⟨floor, hfloor⟩ := exists_isFloor (hR.sorted _) hfirst (k := cp) hcp
  rw [contains_of_isFloor hR hfloor]
  have hge := hfloor.greatest _ hfirst hcp
  have hlekey := hfloor.le
  have hmem := hfloor.mem
  rw [mem_addRange_of_ne hR (by omega)] at hmem
  by_contra hnone
  have hvalue : floor.2 = none := by simpa using hnone
  have hold : floor ∈ R.entries t ∧ floor.1 ≠ fromCp ∧
      ((∀ gap ∈ R.entries t, ¬ isGap fromCp toCp gap = true) ∨
        ∃ gap ∈ R.entries t, isGap fromCp toCp gap = true ∧ floor.1 ≠ gap.1) := by
    rcases fill_cases hR t fromCp toCp element with ⟨hno, hiff⟩ | ⟨gap, hg, ⟨hgap, -⟩, hiff⟩
    · rcases (hiff floor).mp hmem with rfl | h
      · cases hvalue
      · exact ⟨h.1, h.2, Or.inl hno⟩
    · rcases (hiff floor).mp hmem with rfl | ⟨rfl | h, hne⟩
      · cases hvalue
      · cases hvalue
      · exact ⟨h.1, h.2, Or.inr ⟨gap, hg, hgap, hne⟩⟩
  obtain ⟨hmem, hne, hcase⟩ := hold
  have hgap : isGap fromCp toCp floor = true :=
    isGap_iff.mpr ⟨lt_of_le_of_ne hge hne.symm, hlekey.trans hcp', hvalue⟩
  rcases hcase with hno | ⟨gap, hg, hgap', hne'⟩
  · exact hno floor hmem hgap
  · exact hne' (congrArg Prod.fst (hgaps floor hmem gap hg hgap hgap'))

variable (element) in
/-- A second gap is left in the range. -/
theorem exists_not_contains_addRange (hR : R.Lawful) {gap gap' : ℕ × Option E} (hmem : gap ∈ R.entries t)
    (hmem' : gap' ∈ R.entries t) (hgap : isGap fromCp toCp gap = true)
    (hgap' : isGap fromCp toCp gap' = true) (hne : gap ≠ gap') :
    ∃ cp, fromCp ≤ cp ∧ cp ≤ toCp ∧ contains R (addRange R t fromCp toCp element) cp = false := by
  -- a gap that is not the one filled
  obtain ⟨left, hleft, hleft', hkept⟩ : ∃ left ∈ R.entries t, isGap fromCp toCp left = true ∧
      left ∈ R.entries (fill R t fromCp toCp element) := by
    rcases fill_cases hR t fromCp toCp element with ⟨hno, -⟩ | ⟨filled, hf, -, hiff⟩
    · exact absurd hgap (hno gap hmem)
    · have hstay : ∀ left ∈ R.entries t, isGap fromCp toCp left = true → left ≠ filled →
          left ∈ R.entries (fill R t fromCp toCp element) := fun left hl hg hne =>
        (hiff left).mpr (Or.inr ⟨Or.inr ⟨hl, (isGap_iff.mp hg).1.ne'⟩,
          fun hkey => hne (eq_of_key_eq (hR.sorted t) hl hf hkey)⟩)
      by_cases h : gap = filled
      · exact ⟨gap', hmem', hgap', hstay gap' hmem' hgap' (h ▸ hne.symm)⟩
      · exact ⟨gap, hmem, hgap, hstay gap hmem hgap h⟩
  obtain ⟨hlt, hle, hvalue⟩ := isGap_iff.mp hleft'
  refine ⟨left.1, hlt.le, hle, ?_⟩
  have hfloor : IsFloor (R.entries (addRange R t fromCp toCp element)) left.1 left :=
    ⟨(mem_addRange_of_ne hR (by omega)).mpr hkept, le_rfl, fun _ _ h => h⟩
  rw [contains_of_isFloor hR hfloor, hvalue]
  rfl

theorem oldValue_eq_none (hR : R.Lawful) (he : e ∈ R.entries t) (hkey : e.1 = toCp + 1) :
    oldValue R t toCp (toCp + 1) = none := by
  unfold oldValue
  rw [hR.entry_le]
  cases hf : (R.entries t).reverse.find? (·.1 ≤ toCp) with
  | none => rfl
  | some floor =>
    obtain ⟨k, _ | value⟩ := floor
    · rfl
    · have hfloor := (reverse_find?_eq_some_iff (hR.sorted t)).mp hf
      have hk : k ≤ toCp := hfloor.le
      dsimp only
      rw [hR.entry_gt]
      cases hg : (R.entries t).find? (k < ·.1) with
      | none =>
        have := List.find?_eq_none.mp hg e he
        simp only [decide_eq_true_eq] at this
        omega
      | some after =>
        obtain ⟨hlt, l, l', hsplit, hl⟩ := List.find?_eq_some_iff_append.mp hg
        -- the first entry after the floor is not beyond `e`
        have hafter : after.1 ≤ e.1 := by
          rw [hsplit] at he
          rcases List.mem_append.mp he with he | he
          · have := hl e he
            simp only [Bool.not_eq_true', decide_eq_false_iff_not] at this
            omega
          · rcases List.mem_cons.mp he with rfl | he
            · exact le_rfl
            · have hsorted := hR.sorted t
              rw [hsplit] at hsorted
              exact ((List.pairwise_cons.mp (List.pairwise_append.mp hsorted).2.1).1 e he).le
        dsimp only
        rw [if_neg (by omega)]

theorem oldValue_eq_owner (hR : R.Lawful) (hnone : ∀ e ∈ R.entries t, e.1 ≠ toCp + 1) :
    oldValue R t toCp (toCp + 1) = owner R t toCp := by
  unfold oldValue owner
  rw [hR.entry_le]
  cases hf : (R.entries t).reverse.find? (·.1 ≤ toCp) with
  | none => rfl
  | some floor =>
    have hfloor := (reverse_find?_eq_some_iff (hR.sorted t)).mp hf
    obtain ⟨k, _ | value⟩ := floor
    · rfl
    · dsimp only
      rw [hR.entry_gt]
      cases hg : (R.entries t).find? (k < ·.1) with
      | none => rfl
      | some end' =>
        have hlt := List.find?_some hg
        simp only [decide_eq_true_eq] at hlt
        have hmem := List.mem_of_find?_eq_some hg
        have hbeyond : toCp < end'.1 := not_le.mp fun h => absurd (hfloor.greatest end' hmem h) (not_le.mpr hlt)
        have hne := hnone end' hmem
        dsimp only
        rw [if_pos (by omega)]
        rfl

variable (element) in
theorem mem_addRange_next (hR : R.Lawful) (hle : fromCp ≤ toCp) (hmax : toCp + 1 ≤ maxCodePoint)
    (hnone : ∀ e ∈ R.entries t, e.1 ≠ toCp + 1) :
    (toCp + 1, oldValue R t toCp (toCp + 1)) ∈ R.entries (addRange R t fromCp toCp element) := by
  unfold addRange
  dsimp only
  rw [if_pos hmax]
  cases hv : oldValue R t toCp (toCp + 1) with
  | some value => exact (hR.mem_put ..).mpr (Or.inl rfl)
  | none =>
    have hfresh : R.entry (R.find (fill R t fromCp toCp element) (toCp + 1)) = none := by
      rw [hR.entry_find, List.find?_eq_none]
      intro e he
      rcases key_of_mem_fill hR hle he with h | h
      · simp; omega
      · simpa using hnone e h
    dsimp only
    rw [hfresh, Option.isNone_none, if_pos rfl]
    exact (hR.mem_put ..).mpr (Or.inl rfl)

theorem mem_addRange_of_next (hR : R.Lawful) (hle : fromCp ≤ toCp) (he : e ∈ R.entries t)
    (hkey : e.1 = toCp + 1) : e ∈ R.entries (addRange R t fromCp toCp element) := by
  have hfill : e ∈ R.entries (fill R t fromCp toCp element) :=
    (mem_fill_of_outside hR hle (Or.inr (by omega))).mpr he
  have hold := oldValue_eq_none hR he hkey
  unfold addRange
  dsimp only
  rw [hold]
  dsimp only
  have hfound : (R.entry (R.find (fill R t fromCp toCp element) (toCp + 1))).isNone = false := by
    rw [hR.entry_find, Option.isNone_eq_false_iff, List.find?_isSome]
    exact ⟨e, hfill, by simpa using hkey⟩
  rw [hfound]
  simpa using hfill

theorem owner_addRange_after (hR : R.Lawful) (hle : fromCp ≤ toCp) (hcp : toCp < cp)
    (hmax : cp ≤ maxCodePoint) :
    owner R (addRange R t fromCp toCp element) cp = owner R t cp := by
  have hnew : ∀ e ∈ R.entries (addRange R t fromCp toCp element), e.1 ≤ toCp + 1 ∨ e ∈ R.entries t := by
    intro e he
    by_cases h : e.1 = toCp + 1
    · exact Or.inl h.le
    · rw [mem_addRange_of_ne hR h] at he
      exact (key_of_mem_fill hR hle he).imp (fun h => by omega) id
  by_cases hafter : ∃ e ∈ R.entries t, toCp < e.1 ∧ e.1 ≤ cp
  · -- the floor starts after the range, and it is still there
    obtain ⟨e, he, hlt, hecp⟩ := hafter
    obtain ⟨floor, hfloor⟩ := exists_isFloor (hR.sorted t) he hecp
    have hgt : toCp < floor.1 := hlt.trans_le (hfloor.greatest e he hecp)
    have hmem : floor ∈ R.entries (addRange R t fromCp toCp element) := by
      by_cases h : floor.1 = toCp + 1
      · exact mem_addRange_of_next hR hle hfloor.mem h
      · rw [mem_addRange_of_ne hR h, mem_fill_of_outside hR hle (Or.inr hgt)]
        exact hfloor.mem
    rw [owner_of_isFloor hR hfloor, owner_of_isFloor hR
      (⟨hmem, hfloor.le, fun e' he' hle' => ?_⟩ : IsFloor _ cp floor)]
    rcases hnew e' he' with h | h
    · omega
    · exact hfloor.greatest e' h hle'
  · -- nothing starts between the range and the code point: the new key is the floor
    have hno : ∀ e ∈ R.entries t, e.1 ≤ cp → e.1 ≤ toCp := fun e he hecp =>
      not_lt.mp fun h => hafter ⟨e, he, h, hecp⟩
    have hnext := mem_addRange_next element hR hle (by omega) fun e he h => by
      have := hno e he (by omega)
      omega
    have hnew' : ∀ e' ∈ R.entries (addRange R t fromCp toCp element), e'.1 ≤ cp → e'.1 ≤ toCp + 1 := fun e' he' hle' =>
      (hnew e' he').elim id fun h => (hno e' h hle').trans (Nat.le_succ _)
    rw [owner_of_isFloor hR (⟨hnext, by dsimp only; omega, hnew'⟩ : IsFloor _ cp (toCp + 1, _)),
      oldValue_eq_owner hR fun e he h => by
        have := hno e he (by omega)
        omega]
    exact (owner_eq_of_no_key hR hcp.le fun e he h => absurd (hno e he h.2) (not_le.mpr h.1)).symm

theorem contains_addRange_after (hR : R.Lawful) (hle : fromCp ≤ toCp) (hcp : toCp < cp)
    (hmax : cp ≤ maxCodePoint) :
    contains R (addRange R t fromCp toCp element) cp = contains R t cp := by
  rw [contains_eq_isSome, contains_eq_isSome, owner_addRange_after hR hle hcp hmax]

end Step

/-! ### Calls one after the other -/

theorem length_gaps_le_one_iff (hR : R.Lawful) (t : R.Tree) (fromCp toCp : ℕ) :
    (gaps R t fromCp toCp).length ≤ 1 ↔
      ∀ gap ∈ R.entries t, ∀ gap' ∈ R.entries t, isGap fromCp toCp gap = true →
        isGap fromCp toCp gap' = true → gap = gap' := by
  have hnodup : (gaps R t fromCp toCp).Nodup :=
    List.Nodup.filter _ ((hR.sorted t).imp fun h he => (congrArg Prod.fst he ▸ h).ne rfl)
  have hmem : ∀ gap, gap ∈ gaps R t fromCp toCp ↔ gap ∈ R.entries t ∧ isGap fromCp toCp gap = true :=
    fun gap => List.mem_filter
  rcases hg : gaps R t fromCp toCp with _ | ⟨a, _ | ⟨b, rest⟩⟩
  · rw [hg] at hmem
    exact iff_of_true (by simp) fun gap hgap _ _ hg _ => absurd ((hmem gap).mpr ⟨hgap, hg⟩) List.not_mem_nil
  · rw [hg] at hmem
    refine iff_of_true (by simp) fun gap hgap gap' hgap' hg hg' => ?_
    rw [List.mem_singleton.mp ((hmem gap).mpr ⟨hgap, hg⟩),
      List.mem_singleton.mp ((hmem gap').mpr ⟨hgap', hg'⟩)]
  · rw [hg] at hnodup hmem
    refine iff_of_false (by simp) fun h => ?_
    have ha := (hmem a).mp (by simp)
    have hb := (hmem b).mp (by simp)
    have hab : a = b := h a ha.1 b hb.1 ha.2 hb.2
    simp [hab] at hnodup

/-- **One call.** The call adds its range, and nothing else, exactly when at most one entry of the range
after its first code point is a gap. -/
theorem addRange_iff (hR : R.Lawful) (t : R.Tree) (range : Range E) :
    (∀ cp ≤ maxCodePoint,
      (contains R (addRange R t range.fromCp range.toCp range.element) cp = true ↔
        contains R t cp = true ∨ range.contains cp)) ↔
      (gaps R t range.fromCp range.toCp).length ≤ 1 := by
  rw [length_gaps_le_one_iff hR]
  constructor
  · intro h gap hmem gap' hmem' hgap hgap'
    by_contra hne
    obtain ⟨cp, hfrom, hto, hnot⟩ := exists_not_contains_addRange range.element hR hmem hmem'
      hgap hgap' hne
    rw [(h cp (hto.trans range.toCp_le)).mpr (Or.inr ⟨hfrom, hto⟩)] at hnot
    cases hnot
  · intro h cp hmax
    have hrange : range.contains cp ↔ range.fromCp ≤ cp ∧ cp ≤ range.toCp := Iff.rfl
    rcases Nat.lt_or_ge cp range.fromCp with hlt | hge
    · rw [contains_addRange_before hR range.le hlt, hrange]
      exact (or_iff_left fun hc => absurd hc.1 (not_le.mpr hlt)).symm
    · rcases Nat.lt_or_ge range.toCp cp with hgt | hle
      · rw [contains_addRange_after hR range.le hgt hmax, hrange]
        exact (or_iff_left fun hc => absurd hc.2 (not_le.mpr hgt)).symm
      · rw [contains_addRange_inside hR hge hle h]
        exact iff_of_true rfl (Or.inr ⟨hge, hle⟩)

/-- **A sequence of calls.** After every number of calls the class contains exactly the code points of the
ranges added so far, if and only if no call meets more than one gap. -/
theorem addRanges_iff (hR : R.Lawful) (ranges : List (Range E)) :
    (∀ done rest, ranges = done ++ rest → ∀ cp ≤ maxCodePoint,
      (contains R (addRanges R done) cp = true ↔ ∃ range ∈ done, range.contains cp)) ↔
    ∀ done range rest, ranges = done ++ range :: rest →
      (gaps R (addRanges R done) range.fromCp range.toCp).length ≤ 1 := by
  have hsnoc : ∀ (done : List (Range E)) (range : Range E), addRanges R (done ++ [range]) =
      addRange R (addRanges R done) range.fromCp range.toCp range.element := fun done range => by
    simp [addRanges]
  have hexists : ∀ (done : List (Range E)) (range : Range E) (cp : ℕ),
      (∃ r ∈ done ++ [range], r.contains cp) ↔ (∃ r ∈ done, r.contains cp) ∨ range.contains cp :=
    fun done range cp => by simp [or_and_right, exists_or]
  constructor
  · intro h done range rest hsplit
    refine (addRange_iff hR (addRanges R done) range).mp fun cp hcp => ?_
    rw [← hsnoc, h (done ++ [range]) rest (by simp [hsplit]) cp hcp, hexists,
      h done (range :: rest) hsplit cp hcp]
  · intro h done
    induction done using List.reverseRecOn with
    | nil =>
      intro rest _ cp _
      have hempty : contains R R.createTree cp = false :=
        contains_eq_false_of_no_floor hR (by simp [hR.entries_createTree])
      change contains R R.createTree cp = true ↔ _
      rw [hempty]
      simp
    | append_singleton done range ih =>
      intro rest hsplit cp hcp
      have hsplit' : ranges = done ++ range :: rest := by simp [hsplit]
      rw [hsnoc, (addRange_iff hR (addRanges R done) range).mpr (h done range rest hsplit') cp hcp, hexists,
        ih (range :: rest) hsplit' cp hcp]

/-- `[a-cb-d]` contains `d`. -/
theorem addRanges_iff_overlap :
    contains (sortedEntries ℕ (Option String))
      (addRanges _ [⟨97, 99, "a-c", by decide, by decide⟩, ⟨98, 100, "b-d", by decide, by decide⟩]) 100 = true := by
  refine ((addRanges_iff lawful_sortedEntries _).mpr (fun done range rest hsplit => ?_) _ [] rfl 100
    (by decide)).mpr ⟨_, List.mem_cons_of_mem _ List.mem_cons_self, by decide, by decide⟩
  rcases done with _ | ⟨_, _ | ⟨_, done⟩⟩
  · obtain ⟨rfl, -⟩ := List.cons.inj hsplit
    decide
  · obtain ⟨rfl, htail⟩ := List.cons.inj hsplit
    obtain ⟨rfl, -⟩ := List.cons.inj htail
    decide
  · simp at hsplit

/-- `[acea-e]` does not contain `b`: the last range meets the gaps at `b` and `d`, and fills the one at
`d`. -/
theorem addRange_leaves_gap :
    ¬ ∀ cp ≤ maxCodePoint, contains (sortedEntries ℕ (Option String))
        (addRanges _ [⟨97, 97, "a", by decide, by decide⟩, ⟨99, 99, "c", by decide, by decide⟩,
          ⟨101, 101, "e", by decide, by decide⟩, ⟨97, 101, "a-e", by decide, by decide⟩]) cp = true ↔
      ∃ range ∈ ([⟨97, 97, "a", by decide, by decide⟩, ⟨99, 99, "c", by decide, by decide⟩,
        ⟨101, 101, "e", by decide, by decide⟩, ⟨97, 101, "a-e", by decide, by decide⟩] : List (Range String)),
        range.contains cp := by
  intro h
  have hb := (h 98 (by decide)).mpr ⟨_, List.mem_cons_of_mem _ (List.mem_cons_of_mem _
    (List.mem_cons_of_mem _ List.mem_cons_self)), by decide, by decide⟩
  revert hb
  decide

end SonarJavascript.Regex
