import Mathlib.Data.List.Basic
import Mathlib.Data.List.Infix

/-!
# The offsets of a pattern in a text

`offsets` lists the places where a pattern occurs, the first one first. A pattern without a given element
occurs on either side of such an element and nowhere across it (`offsets_append_cons`), so its occurrences in
a text can be computed field by field.
-/

namespace SonarJavascript

variable {α : Type} [DecidableEq α] {pattern text x y : List α} {c : α}

def offsets (pattern text : List α) : List ℕ :=
  (List.range text.length).filter fun i => pattern.isPrefixOf (text.drop i)

theorem offsets_cons (pattern : List α) (a : α) (text : List α) :
    offsets pattern (a :: text) =
      (if pattern.isPrefixOf (a :: text) then [0] else []) ++ (offsets pattern text).map (· + 1) := by
  unfold offsets
  rw [List.length_cons, List.range_succ_eq_map, List.filter_cons, List.filter_map]
  have hshift : (fun i => pattern.isPrefixOf ((a :: text).drop i)) ∘ Nat.succ =
      fun i => pattern.isPrefixOf (text.drop i) := by
    funext i
    simp
  rw [hshift, List.drop_zero]
  split_ifs <;> rfl

theorem offsets_eq_nil (h : ¬ pattern <:+: text) : offsets pattern text = [] := by
  refine List.filter_eq_nil_iff.mpr fun i _ hoccurs => h ?_
  exact (List.isPrefixOf_iff_prefix.mp hoccurs).isInfix.trans (List.drop_suffix i text).isInfix

theorem offsets_eq_zero (hne : pattern ≠ []) (hoccurs : pattern <+: text)
    (h : ∀ i, 0 < i → i + pattern.length ≤ text.length → ¬ pattern <+: text.drop i) :
    offsets pattern text = [0] := by
  cases text with
  | nil => exact absurd (List.prefix_nil.mp hoccurs) hne
  | cons a text =>
    have hrest : offsets pattern text = [] := by
      refine List.filter_eq_nil_iff.mpr fun i hi hagain => ?_
      have hagain := List.isPrefixOf_iff_prefix.mp hagain
      have hle := hagain.length_le
      rw [List.length_drop] at hle
      refine h (i + 1) i.succ_pos ?_ hagain
      rw [List.length_cons]
      have := List.mem_range.mp hi
      omega
    rw [offsets_cons, if_pos (List.isPrefixOf_iff_prefix.mpr hoccurs), hrest]
    rfl

theorem filter_range_eq_offsets (hne : pattern ≠ []) :
    ((List.range (text.length + 1 - pattern.length)).filter fun i => pattern.isPrefixOf (text.drop i)) =
      offsets pattern text := by
  have hpos := List.length_pos_iff.mpr hne
  obtain ⟨k, hk⟩ : ∃ k, text.length = text.length + 1 - pattern.length + k :=
    ⟨text.length - (text.length + 1 - pattern.length), by omega⟩
  unfold offsets
  conv_rhs => rw [hk, List.range_add, List.filter_append]
  have hrest : ((List.range k).map (text.length + 1 - pattern.length + ·)).filter
      (fun i => pattern.isPrefixOf (text.drop i)) = [] := by
    refine List.filter_eq_nil_iff.mpr fun i hi hoccurs => ?_
    obtain ⟨j, hj, rfl⟩ := List.mem_map.mp hi
    have hle := (List.isPrefixOf_iff_prefix.mp hoccurs).length_le
    rw [List.length_drop] at hle
    omega
  rw [hrest, List.append_nil]

theorem isPrefixOf_append_cons (hc : c ∉ pattern) :
    pattern.isPrefixOf (x ++ c :: y) = pattern.isPrefixOf x := by
  refine Bool.eq_iff_iff.mpr ?_
  rw [List.isPrefixOf_iff_prefix, List.isPrefixOf_iff_prefix]
  refine ⟨fun h => ?_, fun h => h.trans (List.prefix_append x _)⟩
  obtain hpre | ⟨rest, rfl⟩ := List.prefix_or_prefix_of_prefix h (List.prefix_append x (c :: y))
  · exact hpre
  · cases rest with
    | nil => rw [List.append_nil]
    | cons b rest =>
      have hhead := (List.prefix_append_right_inj x).mp h
      rw [(List.cons_prefix_cons.mp hhead).1] at hc
      exact absurd (by simp) hc

theorem offsets_append_cons (hne : pattern ≠ []) (hc : c ∉ pattern) (x y : List α) :
    offsets pattern (x ++ c :: y) =
      offsets pattern x ++ (offsets pattern y).map (· + (x.length + 1)) := by
  induction x with
  | nil =>
    have hnot : pattern.isPrefixOf (c :: y) = false := by
      have h := isPrefixOf_append_cons (x := []) (y := y) hc
      obtain ⟨b, rest, rfl⟩ := List.exists_cons_of_ne_nil hne
      exact h
    rw [List.nil_append, offsets_cons, hnot]
    rfl
  | cons b x ih =>
    rw [List.cons_append, offsets_cons, offsets_cons, ih, ← List.cons_append, isPrefixOf_append_cons hc]
    simp [Function.comp_def, Nat.add_assoc]

theorem head?_offsets_append {n : ℕ} (h : (offsets pattern text).head? = some n)
    (hend : n + pattern.length = text.length) (rest : List α) :
    (offsets pattern (text ++ rest)).head? = some n := by
  induction text generalizing n with
  | nil => cases h
  | cons a text ih =>
    rw [List.cons_append, offsets_cons]
    rw [offsets_cons] at h
    by_cases hpre : pattern.isPrefixOf (a :: text)
    · have hext := List.isPrefixOf_iff_prefix.mpr
        ((List.isPrefixOf_iff_prefix.mp hpre).trans (List.prefix_append (a :: text) rest))
      rw [List.cons_append] at hext
      rw [if_pos hpre] at h
      rw [if_pos hext]
      exact h
    · rw [if_neg hpre, List.nil_append, List.head?_map] at h
      obtain ⟨m, hm, rfl⟩ := Option.map_eq_some_iff.mp h
      have hshort : ¬ pattern.isPrefixOf (a :: (text ++ rest)) := by
        intro hext
        -- the pattern is not longer than the text, which it would be a prefix of
        refine hpre (List.isPrefixOf_iff_prefix.mpr ?_)
        rw [← List.cons_append] at hext
        refine List.prefix_of_prefix_length_le (List.isPrefixOf_iff_prefix.mp hext) (List.prefix_append _ rest) ?_
        rw [List.length_cons] at hend ⊢
        omega
      rw [if_neg hshort, List.nil_append, List.head?_map, ih hm (by rw [List.length_cons] at hend; omega)]
      rfl

end SonarJavascript
