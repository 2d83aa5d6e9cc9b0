import Mathlib.Data.List.Nodup

/-!
# The first element of a stable sort

A list without duplicates, sorted by a key that leaves ties, starts with the first of its elements with the least
key (`head?_mergeSort`). Dropping duplicates keeps the first element with a property (`find?_eraseDups`).
-/

namespace SonarJavascript

variable {α : Type}

section Duplicates

variable [BEq α] [LawfulBEq α]

theorem nodup_eraseDups (l : List α) : l.eraseDups.Nodup := by
  match l with
  | [] => exact List.nodup_nil
  | a :: l =>
    have hlt : (l.filter fun b => !b == a).length < l.length + 1 := Nat.lt_succ_of_le (List.length_filter_le _ l)
    rw [List.eraseDups_cons, List.nodup_cons]
    refine ⟨fun hmem => ?_, nodup_eraseDups _⟩
    simpa using (List.mem_filter.mp (List.mem_eraseDups.mp hmem)).2
termination_by l.length

theorem find?_eraseDups (p : α → Bool) (l : List α) : l.eraseDups.find? p = l.find? p := by
  match l with
  | [] => rfl
  | a :: l =>
    have hlt : (l.filter fun b => !b == a).length < l.length + 1 := Nat.lt_succ_of_le (List.length_filter_le _ l)
    rw [List.eraseDups_cons, List.find?_cons, List.find?_cons]
    cases ha : p a with
    | true => rfl
    | false =>
      rw [find?_eraseDups p, List.find?_filter]
      refine congrFun (congrArg List.find? (funext fun b => ?_)) l
      by_cases hb : b = a
      · simp [hb, ha]
      · simp [hb]
termination_by l.length

end Duplicates

section Sorting

variable {le : α → α → Bool} {l : List α}

/-- The elements with the least key. -/
def isLeast (le : α → α → Bool) (l : List α) (a : α) : Bool := l.all fun b => le a b

theorem head?_mergeSort (htrans : ∀ a b c, le a b → le b c → le a c) (htotal : ∀ a b, le a b || le b a)
    (hnodup : l.Nodup) : (l.mergeSort le).head? = l.find? (isLeast le l) := by
  cases hsort : l.mergeSort le with
  | nil =>
    have hperm := List.mergeSort_perm l le
    rw [hsort] at hperm
    rw [← hperm.nil_eq]
    rfl
  | cons first rest =>
    have hmem : ∀ {a}, a ∈ l ↔ a ∈ first :: rest := by
      intro a
      rw [← hsort, List.mem_mergeSort]
    have hfirst : isLeast le l first = true := by
      refine List.all_eq_true.mpr fun b hb => ?_
      have hpairwise := List.pairwise_mergeSort htrans htotal l
      rw [hsort] at hpairwise
      rcases List.mem_cons.mp (hmem.mp hb) with rfl | hrest
      · simpa using htotal b b
      · exact List.rel_of_pairwise_cons hpairwise hrest
    obtain ⟨least, hleast⟩ : ∃ least, l.find? (isLeast le l) = some least :=
      Option.isSome_iff_exists.mp (List.find?_isSome.mpr ⟨first, hmem.mpr List.mem_cons_self, hfirst⟩)
    rw [hleast, List.head?_cons, Option.some.injEq]
    by_contra hne
    -- the two are sorted as they stand in the list, the other one first
    obtain ⟨hisLeast, before, after, rfl, hbefore⟩ := List.find?_eq_some_iff_append.mp hleast
    have hafter : first ∈ after := by
      have hmemFirst := hmem.mpr (List.mem_cons_self (a := first) (l := rest))
      rcases List.mem_append.mp hmemFirst with h | h
      · simpa [hfirst] using hbefore first h
      · exact (List.mem_cons.mp h).resolve_left hne
    have hsublist : List.Sublist [least, first] (before ++ least :: after) :=
      List.sublist_append_of_sublist_right ((List.singleton_sublist.mpr hafter).cons_cons least)
    have hle : le least first = true := List.all_eq_true.mp hisLeast first (hmem.mpr List.mem_cons_self)
    have hsorted := List.pair_sublist_mergeSort htrans htotal hle hsublist
    have hnodupSort : (first :: rest).Nodup := by
      rw [← hsort]
      exact (List.mergeSort_perm _ le).nodup_iff.mpr hnodup
    rw [hsort] at hsorted
    cases hsorted with
    | cons _ h => exact (List.nodup_cons.mp hnodupSort).1 (h.subset (by simp))
    | cons_cons _ h => exact hne rfl

end Sorting

end SonarJavascript
