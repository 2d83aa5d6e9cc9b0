import Mathlib.Data.List.Perm.Subperm
import Mathlib.Data.List.Sort
import SonarJavascript.Embedded.Text

/-!
# Line tables

Two parts of the program split a file into lines: the HTML parser at CR LF, CR and LF, ESLint at these
and at U+2028 and U+2029. `lineStarts` is the table of both, with the line breaks as a parameter.

`locate` is the line and the column that a table gives to an offset. Where one table is part of another,
they locate an offset alike when all line starts up to it are in both (`locate_eq_iff`).
-/

namespace SonarJavascript.Embedded

open CodeUnit

/-! ### The two tables -/

/-- The matches of a global regular expression for CR LF or one code unit of `isBreak`: where each
starts and ends. -/
def lineBreaks (isBreak : CodeUnit → Bool) : ℕ → Text → List (ℕ × ℕ)
  | _, [] => []
  | pos, [c] => if isBreak c then [(pos, pos + 1)] else []
  | pos, c :: d :: rest =>
    if c = CR ∧ d = LF then (pos, pos + 2) :: lineBreaks isBreak (pos + 2) rest
    else if isBreak c then (pos, pos + 1) :: lineBreaks isBreak (pos + 1) (d :: rest)
    else lineBreaks isBreak (pos + 1) (d :: rest)

def lineStarts (isBreak : CodeUnit → Bool) (text : Text) : List ℕ :=
  0 :: (lineBreaks isBreak 0 text).map Prod.snd

/-- `/\r\n|\r|\n/g` -/
def htmlBreak (c : CodeUnit) : Bool := c = CR || c = LF

/-- `/\r\n|[\r\n\u2028\u2029]/gu` -/
def eslintBreak (c : CodeUnit) : Bool := c = CR || c = LF || c = LS || c = PS

/-- `computeLineStarts` of the HTML parser. -/
def computeLineStarts (text : Text) : List ℕ := lineStarts htmlBreak text

structure Location where
  line : ℕ
  column : ℕ
  deriving DecidableEq

/-- The line that starts last up to the offset. -/
def locate (starts : List ℕ) (offset : ℕ) : Location :=
  ⟨(starts.filter (· ≤ offset)).length, offset - (starts.filter (· ≤ offset)).getLastD 0⟩

/-! ### Line starts -/

/-- A line starts at `s`, after a line break and not inside a CR LF. -/
def IsLineStart (isBreak : CodeUnit → Bool) (text : Text) (s : ℕ) : Prop :=
  ∃ c, 0 < s ∧ text[s - 1]? = some c ∧ isBreak c = true ∧ ¬ (c = CR ∧ text[s]? = some LF)

variable {isBreak : CodeUnit → Bool} {text : Text} {s : ℕ}

theorem isLineStart_cons {c : CodeUnit} (k : ℕ) :
    IsLineStart isBreak (c :: text) (k + 2) ↔ IsLineStart isBreak text (k + 1) := by
  unfold IsLineStart
  simp

theorem isLineStart_one {c : CodeUnit} :
    IsLineStart isBreak (c :: text) 1 ↔ isBreak c = true ∧ ¬ (c = CR ∧ text.head? = some LF) := by
  unfold IsLineStart
  simp [List.head?_eq_getElem?]

theorem IsLineStart.pos (h : IsLineStart isBreak text s) : 0 < s := h.choose_spec.1

theorem IsLineStart.le_length (h : IsLineStart isBreak text s) : s ≤ text.length := by
  obtain ⟨c, hpos, hget, -⟩ := h
  have := (List.getElem?_eq_some_iff.mp hget).1
  omega

theorem not_isLineStart_nil : ¬ IsLineStart isBreak [] s := fun h => by
  have := h.pos
  have := h.le_length
  simp at this
  omega

/-- The line starts after the first code unit, one by one. -/
theorem exists_isLineStart_cons {c : CodeUnit} (pos : ℕ) :
    (∃ k, s = pos + k ∧ IsLineStart isBreak (c :: text) k) ↔
      (s = pos + 1 ∧ isBreak c = true ∧ ¬ (c = CR ∧ text.head? = some LF)) ∨
        ∃ k, s = pos + 1 + k ∧ IsLineStart isBreak text k := by
  constructor
  · rintro ⟨k, rfl, hk⟩
    match k, hk.pos with
    | 1, _ => exact .inl ⟨rfl, isLineStart_one.mp hk⟩
    | k + 2, _ => exact .inr ⟨k + 1, by omega, (isLineStart_cons k).mp hk⟩
  · rintro (⟨rfl, h⟩ | ⟨k, rfl, hk⟩)
    · exact ⟨1, rfl, isLineStart_one.mpr h⟩
    · obtain ⟨k, rfl⟩ : ∃ j, k = j + 1 := ⟨k - 1, by have := hk.pos; omega⟩
      exact ⟨k + 2, by omega, (isLineStart_cons k).mpr hk⟩

theorem mem_lineBreaks (hLF : isBreak LF = true) (pos : ℕ) (text : Text) (s : ℕ) :
    s ∈ (lineBreaks isBreak pos text).map Prod.snd ↔ ∃ k, s = pos + k ∧ IsLineStart isBreak text k := by
  fun_induction lineBreaks isBreak pos text with
  | case1 pos => simp [not_isLineStart_nil]
  | case2 pos c h => simp [exists_isLineStart_cons, not_isLineStart_nil, h]
  | case3 pos c h => simp [exists_isLineStart_cons, not_isLineStart_nil, h]
  | case4 pos c d rest h ih =>
    obtain ⟨rfl, rfl⟩ := h
    rw [exists_isLineStart_cons, exists_isLineStart_cons, List.map_cons, List.mem_cons, ih]
    simp [hLF, show ¬ (LF = CR) from by decide, show pos + 1 + 1 = pos + 2 from rfl]
  | case5 pos c d rest h h' ih =>
    rw [exists_isLineStart_cons, List.map_cons, List.mem_cons, ih]
    simp [h, h']
  | case6 pos c d rest h h' ih =>
    rw [exists_isLineStart_cons, ih]
    simp [h']

theorem mem_lineStarts (hLF : isBreak LF = true) :
    s ∈ lineStarts isBreak text ↔ s = 0 ∨ IsLineStart isBreak text s := by
  rw [lineStarts, List.mem_cons, mem_lineBreaks hLF]
  simp

theorem lineBreaks_sorted (pos : ℕ) (text : Text) :
    ((lineBreaks isBreak pos text).map Prod.snd).Pairwise (· < ·) ∧
      ∀ s ∈ (lineBreaks isBreak pos text).map Prod.snd, pos < s := by
  fun_induction lineBreaks isBreak pos text with
  | case1 pos => simp
  | case2 pos c h => simp
  | case3 pos c h => simp
  | case4 pos c d rest h ih =>
    simp only [List.map_cons, List.pairwise_cons, List.forall_mem_cons]
    exact ⟨⟨ih.2, ih.1⟩, by omega, fun s hs => by have := ih.2 s hs; omega⟩
  | case5 pos c d rest h h' ih =>
    simp only [List.map_cons, List.pairwise_cons, List.forall_mem_cons]
    exact ⟨⟨ih.2, ih.1⟩, by omega, fun s hs => by have := ih.2 s hs; omega⟩
  | case6 pos c d rest h h' ih => exact ⟨ih.1, fun s hs => by have := ih.2 s hs; omega⟩

theorem lineStarts_sorted (isBreak : CodeUnit → Bool) (text : Text) :
    (lineStarts isBreak text).Pairwise (· < ·) :=
  List.pairwise_cons.mpr ⟨(lineBreaks_sorted 0 text).2, (lineBreaks_sorted 0 text).1⟩

/-! ### Two tables -/

/-- A sorted table that starts at 0. -/
structure IsTable (starts : List ℕ) : Prop where
  sorted : starts.Pairwise (· < ·)
  zero_mem : 0 ∈ starts

theorem isTable_lineStarts (isBreak : CodeUnit → Bool) (text : Text) : IsTable (lineStarts isBreak text) :=
  ⟨lineStarts_sorted isBreak text, List.mem_cons_self⟩

variable {starts other : List ℕ} {p : ℕ}

theorem IsTable.nodup (h : IsTable starts) : starts.Nodup := h.sorted.imp fun hlt => Nat.ne_of_lt hlt

/-- What is last up to an offset: a line start, and none is between. -/
theorem IsTable.last (h : IsTable starts) (p : ℕ) :
    (starts.filter (· ≤ p)).getLastD 0 ∈ starts ∧ (starts.filter (· ≤ p)).getLastD 0 ≤ p ∧
      ∀ s ∈ starts, s ≤ p → s ≤ (starts.filter (· ≤ p)).getLastD 0 := by
  have hne : starts.filter (· ≤ p) ≠ [] :=
    List.ne_nil_of_mem (List.mem_filter.mpr ⟨h.zero_mem, by simp⟩)
  obtain ⟨init, last, heq⟩ : ∃ init last, starts.filter (· ≤ p) = init ++ [last] :=
    ⟨_, _, (List.dropLast_append_getLast hne).symm⟩
  have hlast : (starts.filter (· ≤ p)).getLastD 0 = last := by simp [heq]
  have hmem : last ∈ starts.filter (· ≤ p) := by simp [heq]
  have hsorted := h.sorted.filter (· ≤ p)
  rw [heq, List.pairwise_append] at hsorted
  rw [hlast]
  refine ⟨List.mem_of_mem_filter hmem, by simpa using (List.mem_filter.mp hmem).2, fun s hs hsp => ?_⟩
  have hs' : s ∈ starts.filter (· ≤ p) := List.mem_filter.mpr ⟨hs, by simpa using hsp⟩
  rw [heq, List.mem_append, List.mem_singleton] at hs'
  obtain hs' | rfl := hs'
  · exact (hsorted.2.2 s hs' last (by simp)).le
  · exact le_rfl

theorem sorted_ext {l l' : List ℕ} (h : l.Pairwise (· < ·)) (h' : l'.Pairwise (· < ·))
    (hmem : ∀ s, s ∈ l ↔ s ∈ l') : l = l' :=
  ((List.perm_ext_iff_of_nodup (h.imp fun hlt => Nat.ne_of_lt hlt)
    (h'.imp fun hlt => Nat.ne_of_lt hlt)).mpr hmem).eq_of_pairwise' h h'

theorem locate_congr (h : IsTable starts) (h' : IsTable other)
    (hmem : ∀ s ≤ p, s ∈ starts ↔ s ∈ other) : locate starts p = locate other p := by
  have heq : starts.filter (· ≤ p) = other.filter (· ≤ p) := by
    refine sorted_ext (h.sorted.filter _) (h'.sorted.filter _) fun s => ?_
    simp only [List.mem_filter, decide_eq_true_eq]
    exact ⟨fun ⟨hs, hp⟩ => ⟨(hmem s hp).mp hs, hp⟩, fun ⟨hs, hp⟩ => ⟨(hmem s hp).mpr hs, hp⟩⟩
  rw [locate, locate, heq]

/-- A table that is part of another locates an offset as the other does if and only if it has all line
starts up to the offset. -/
theorem locate_eq_iff (h : IsTable starts) (h' : IsTable other) (hsub : ∀ s ∈ starts, s ∈ other) :
    locate starts p = locate other p ↔ ∀ s ∈ other, s ≤ p → s ∈ starts := by
  constructor
  · intro heq s hs hp
    have hlen : (starts.filter (· ≤ p)).length = (other.filter (· ≤ p)).length := congrArg Location.line heq
    have hsubset : starts.filter (· ≤ p) ⊆ other.filter (· ≤ p) := fun s hs =>
      List.mem_filter.mpr ⟨hsub s (List.mem_of_mem_filter hs), (List.mem_filter.mp hs).2⟩
    have hperm := (List.Nodup.subperm (h.nodup.filter _) hsubset).perm_of_length_le hlen.ge
    exact List.mem_of_mem_filter (hperm.mem_iff.mpr (List.mem_filter.mpr ⟨hs, by simpa using hp⟩))
  · exact fun hall => locate_congr h h' fun s hp => ⟨hsub s, fun hs => hall s hs hp⟩

/-- A table against one of the text without its first code unit: they locate an offset alike if and only
if it is on the first line of both. -/
theorem locate_tail_eq_iff (h : IsTable starts) (h' : IsTable other) (hone : 1 ∉ starts)
    (hshift : ∀ s ∈ starts, 0 < s → s - 1 ∈ other) :
    locate starts p = locate other p ↔ ∀ s ∈ other, s ≤ p → s = 0 := by
  obtain ⟨hmem, hle, hmax⟩ := h.last p
  obtain ⟨hmem', hle', hmax'⟩ := h'.last p
  constructor
  · intro heq
    have hlen : (starts.filter (· ≤ p)).length = (other.filter (· ≤ p)).length := congrArg Location.line heq
    have hcol : p - (starts.filter (· ≤ p)).getLastD 0 = p - (other.filter (· ≤ p)).getLastD 0 :=
      congrArg Location.column heq
    generalize (starts.filter (· ≤ p)).getLastD 0 = last at *
    obtain rfl : (other.filter (· ≤ p)).getLastD 0 = last := by omega
    generalize (other.filter (· ≤ p)).getLastD 0 = last at *
    -- the line starts of the first table, moved by one, are line starts of the second before `last`
    by_contra hall
    have hpos : last ≠ 0 := fun h0 => hall fun s hs hp => by have := hmax' s hs hp; omega
    have hcons : (last :: (starts.filter (· ≤ p)).map (· - 1)).Nodup := by
      refine List.nodup_cons.mpr ⟨fun hin => ?_, (List.nodup_map_iff_inj_on (h.nodup.filter _)).mpr ?_⟩
      · obtain ⟨s, hs, hs'⟩ := List.mem_map.mp hin
        have := hmax s (List.mem_of_mem_filter hs) (by simpa using (List.mem_filter.mp hs).2)
        omega
      · intro s hs s' hs' heq'
        have : s ≠ 1 := fun h1 => hone (h1 ▸ List.mem_of_mem_filter hs)
        have : s' ≠ 1 := fun h1 => hone (h1 ▸ List.mem_of_mem_filter hs')
        omega
    have hsubset : last :: (starts.filter (· ≤ p)).map (· - 1) ⊆ other.filter (· ≤ p) := by
      refine List.cons_subset.mpr ⟨List.mem_filter.mpr ⟨hmem', by simpa using hle⟩, fun s hs => ?_⟩
      obtain ⟨t, ht, rfl⟩ := List.mem_map.mp hs
      have hp : t ≤ p := by simpa using (List.mem_filter.mp ht).2
      refine List.mem_filter.mpr ⟨?_, by simp; omega⟩
      obtain rfl | htpos := Nat.eq_zero_or_pos t
      · exact h'.zero_mem
      · exact hshift t (List.mem_of_mem_filter ht) htpos
    have := hcons.length_le_of_subset hsubset
    simp only [List.length_cons, List.length_map] at this
    omega
  · intro hall
    refine locate_congr h h' fun s hp => ⟨fun hs => ?_, fun hs => (hall s hs hp).symm ▸ h.zero_mem⟩
    obtain rfl | hpos := Nat.eq_zero_or_pos s
    · exact h'.zero_mem
    · have := hall (s - 1) (hshift s hs hpos) (by omega)
      exact absurd (show s = 1 by omega) fun h1 => hone (h1 ▸ hs)

/-! ### Where the HTML parser sees a snippet -/

/-- `computeLine`: the loop stops at the first line start after the offset. -/
def computeLine (offset : ℕ) (fileLineStarts : List ℕ) : ℕ :=
  (fileLineStarts.takeWhile (· ≤ offset)).length

def computeCol (offset : ℕ) (fileLineStarts : List ℕ) : ℕ :=
  offset - fileLineStarts.getD (computeLine offset fileLineStarts - 1) 0 + 1

theorem takeWhile_le_eq_filter (hsorted : starts.Pairwise (· < ·)) (p : ℕ) :
    starts.takeWhile (· ≤ p) = starts.filter (· ≤ p) := by
  induction starts with
  | nil => rfl
  | cons s starts ih =>
    obtain ⟨hhead, htail⟩ := List.pairwise_cons.mp hsorted
    by_cases hs : s ≤ p
    · simp [hs, ih htail]
    · have hnone : starts.filter (· ≤ p) = [] := List.filter_eq_nil_iff.mpr fun t ht => by
        have := hhead t ht
        simp
        omega
      simp [hs, hnone]

theorem computeCol_eq (h : IsTable starts) (offset : ℕ) :
    locate starts offset = ⟨computeLine offset starts, computeCol offset starts - 1⟩ := by
  have hfilter := takeWhile_le_eq_filter h.sorted offset
  have hne : starts.takeWhile (· ≤ offset) ≠ [] := by
    rw [hfilter]
    exact List.ne_nil_of_mem (List.mem_filter.mpr ⟨h.zero_mem, by simp⟩)
  obtain ⟨init, last, heq⟩ : ∃ init last, starts.takeWhile (· ≤ offset) = init ++ [last] :=
    ⟨_, _, (List.dropLast_append_getLast hne).symm⟩
  have hlast : starts.getD (computeLine offset starts - 1) 0 = last := by
    rw [computeLine, heq, ← List.takeWhile_append_dropWhile (p := (· ≤ offset)) (l := starts), heq]
    simp
  rw [locate, ← hfilter, computeCol, Nat.add_sub_cancel, hlast, computeLine, heq]
  simp

end SonarJavascript.Embedded
