import Mathlib.Data.List.Nodup
import Mathlib.Data.List.TakeWhile
import Mathlib.Logic.Function.Iterate
import Mathlib.Order.Lattice

/-!
# Persistent ordered maps

The interface of a persistent ordered map whose iterators stay on the version they were opened on:
`OrderedTree` has the operations, `Lawful` says what they do to the sorted list of entries. An entry
is found by its key, by the greatest key up to a bound or by the least key above one, and an update
through an iterator is an update of the iterator's version, whatever has been built from it since.

`sortedEntries` is the map that is its list of entries.
-/

namespace SonarJavascript

/-- The operations. `entries` is the view that the laws speak about. -/
structure OrderedTree (κ V : Type) where
  Tree : Type
  Iterator : Type
  createTree : Tree
  length : Tree → ℕ
  insert : Tree → κ → V → Tree
  find : Tree → κ → Iterator
  le : Tree → κ → Iterator
  gt : Tree → κ → Iterator
  begin : Tree → Iterator
  next : Iterator → Iterator
  /-- The key and the value, when the iterator points at an entry. -/
  entry : Iterator → Option (κ × V)
  update : Iterator → V → Tree
  entries : Tree → List (κ × V)
  version : Iterator → Tree

namespace OrderedTree

variable {κ V : Type} [LinearOrder κ]

/-- What a persistent ordered map promises. -/
structure Lawful (R : OrderedTree κ V) : Prop where
  sorted : ∀ t, (R.entries t).Pairwise fun a b => a.1 < b.1
  length_eq : ∀ t, R.length t = (R.entries t).length
  entries_createTree : R.entries R.createTree = []
  mem_insert : ∀ t k v e, (∀ e ∈ R.entries t, e.1 ≠ k) →
    (e ∈ R.entries (R.insert t k v) ↔ e = (k, v) ∨ e ∈ R.entries t)
  entry_find : ∀ t k, R.entry (R.find t k) = (R.entries t).find? (·.1 = k)
  entry_le : ∀ t k, R.entry (R.le t k) = (R.entries t).reverse.find? (·.1 ≤ k)
  entry_gt : ∀ t k, R.entry (R.gt t k) = (R.entries t).find? (k < ·.1)
  entry_walk : ∀ t n, R.entry (R.next^[n] (R.begin t)) = (R.entries t)[n]?
  version_find : ∀ t k, R.version (R.find t k) = t
  version_walk : ∀ t n, R.version (R.next^[n] (R.begin t)) = t
  mem_update : ∀ it k v₀ v e, R.entry it = some (k, v₀) →
    (e ∈ R.entries (R.update it v) ↔ e = (k, v) ∨ (e ∈ R.entries (R.version it) ∧ e.1 ≠ k))

/-! ### Greatest key up to a bound -/

/-- `e` is the entry of the list with the greatest key up to `k`. -/
structure IsFloor (l : List (κ × V)) (k : κ) (e : κ × V) : Prop where
  mem : e ∈ l
  le : e.1 ≤ k
  greatest : ∀ e' ∈ l, e'.1 ≤ k → e'.1 ≤ e.1

section Sorted

variable {l l' : List (κ × V)} {k : κ} {e e' : κ × V}

theorem eq_of_key_eq (hl : l.Pairwise fun a b => a.1 < b.1) (he : e ∈ l) (he' : e' ∈ l)
    (h : e.1 = e'.1) : e = e' := by
  have hnodup : (l.map Prod.fst).Nodup := List.pairwise_map.mpr (hl.imp fun h => h.ne)
  exact List.inj_on_of_nodup_map hnodup he he' h

theorem IsFloor.eq (hl : l.Pairwise fun a b => a.1 < b.1) (h : IsFloor l k e) (h' : IsFloor l k e') :
    e = e' :=
  eq_of_key_eq hl h.mem h'.mem (le_antisymm (h'.greatest e h.mem h.le) (h.greatest e' h'.mem h'.le))

theorem IsFloor.congr (h : IsFloor l k e) (hmem : ∀ e : κ × V, e.1 ≤ k → (e ∈ l ↔ e ∈ l')) :
    IsFloor l' k e where
  mem := (hmem e h.le).mp h.mem
  le := h.le
  greatest e' he' hle := h.greatest e' ((hmem e' hle).mpr he') hle

theorem isFloor_of_reverse_find? (hl : l.Pairwise fun a b => a.1 < b.1)
    (h : l.reverse.find? (·.1 ≤ k) = some e) : IsFloor l k e := by
  obtain ⟨hle, after, before, hsplit, hafter⟩ := List.find?_eq_some_iff_append.mp h
  have hsplit : l = before.reverse ++ e :: after.reverse := by
    rw [← List.reverse_reverse l, hsplit]
    simp
  rw [hsplit] at hl ⊢
  refine ⟨by simp, by simpa using hle, fun e' he' hle' => ?_⟩
  rcases List.mem_append.mp he' with he' | he'
  · exact ((List.pairwise_append.mp hl).2.2 e' he' e List.mem_cons_self).le
  · rcases List.mem_cons.mp he' with rfl | he'
    · exact le_rfl
    · have := hafter e' (List.mem_reverse.mp he')
      simp only [Bool.not_eq_true', decide_eq_false_iff_not] at this
      exact absurd hle' this

theorem reverse_find?_eq_some_iff (hl : l.Pairwise fun a b => a.1 < b.1) :
    l.reverse.find? (·.1 ≤ k) = some e ↔ IsFloor l k e := by
  refine ⟨isFloor_of_reverse_find? hl, fun h => ?_⟩
  cases hf : l.reverse.find? (·.1 ≤ k) with
  | none =>
    rw [List.find?_eq_none] at hf
    exact absurd (hf e (List.mem_reverse.mpr h.mem)) (by simpa using h.le)
  | some e' => rw [(isFloor_of_reverse_find? hl hf).eq hl h]

theorem exists_isFloor (hl : l.Pairwise fun a b => a.1 < b.1) (he : e ∈ l) (hle : e.1 ≤ k) :
    ∃ e', IsFloor l k e' := by
  cases hf : l.reverse.find? (·.1 ≤ k) with
  | none =>
    rw [List.find?_eq_none] at hf
    exact absurd (hf e (List.mem_reverse.mpr he)) (by simpa using hle)
  | some e' => exact ⟨e', isFloor_of_reverse_find? hl hf⟩

end Sorted

/-! ### Writing a key -/

/-- Updates the entry of the key, or inserts one. -/
def put (R : OrderedTree κ V) (key : κ) (value : V) (tree : R.Tree) : R.Tree :=
  match R.entry (R.find tree key) with
  | some _ => R.update (R.find tree key) value
  | none => R.insert tree key value

theorem Lawful.mem_put {R : OrderedTree κ V} (hR : R.Lawful) (t : R.Tree) (k : κ) (v : V) (e : κ × V) :
    e ∈ R.entries (R.put k v t) ↔ e = (k, v) ∨ (e ∈ R.entries t ∧ e.1 ≠ k) := by
  have hfind := hR.entry_find t k
  unfold put
  cases hf : R.entry (R.find t k) with
  | some e₀ =>
    have hkey : e₀.1 = k := by
      rw [hf] at hfind
      simpa using List.find?_some hfind.symm
    dsimp only
    rw [hR.mem_update (R.find t k) k e₀.2 v e (by rw [hf, ← hkey]), hR.version_find]
  | none =>
    rw [hf] at hfind
    have hfresh : ∀ e ∈ R.entries t, e.1 ≠ k := fun e he => by
      simpa using List.find?_eq_none.mp hfind.symm e he
    dsimp only
    rw [hR.mem_insert t k v e hfresh]
    exact or_congr_right ⟨fun h => ⟨h, hfresh e h⟩, fun h => h.1⟩

/-! ### The map that is its list of entries -/

/-- The entries in order of their keys. -/
structure SortedEntries (κ V : Type) [LinearOrder κ] where
  list : List (κ × V)
  sorted : list.Pairwise fun a b => a.1 < b.1

namespace SortedEntries

def insertEntry (k : κ) (v : V) : List (κ × V) → List (κ × V)
  | [] => [(k, v)]
  | e :: l =>
    if k < e.1 then (k, v) :: e :: l
    else if e.1 < k then e :: insertEntry k v l
    else (k, v) :: l

theorem key_of_mem_insertEntry {k : κ} {v : V} {l : List (κ × V)} {e : κ × V}
    (h : e ∈ insertEntry k v l) : e.1 = k ∨ e ∈ l := by
  induction l with
  | nil => exact Or.inl (congrArg Prod.fst (List.mem_singleton.mp h))
  | cons a l ih =>
    unfold insertEntry at h
    split_ifs at h
    · rcases List.mem_cons.mp h with rfl | h
      · exact Or.inl rfl
      · exact Or.inr h
    · rcases List.mem_cons.mp h with rfl | h
      · exact Or.inr List.mem_cons_self
      · exact (ih h).imp id (List.mem_cons_of_mem _)
    · rcases List.mem_cons.mp h with rfl | h
      · exact Or.inl rfl
      · exact Or.inr (List.mem_cons_of_mem _ h)

theorem sorted_insertEntry (k : κ) (v : V) {l : List (κ × V)} (h : l.Pairwise fun a b => a.1 < b.1) :
    (insertEntry k v l).Pairwise fun a b => a.1 < b.1 := by
  induction l with
  | nil => exact List.pairwise_singleton _ _
  | cons a l ih =>
    obtain ⟨ha, hl⟩ := List.pairwise_cons.mp h
    unfold insertEntry
    split_ifs with hlt hgt
    · refine List.pairwise_cons.mpr ⟨fun e he => ?_, h⟩
      rcases List.mem_cons.mp he with rfl | he
      · exact hlt
      · exact hlt.trans (ha e he)
    · refine List.pairwise_cons.mpr ⟨fun e he => ?_, ih hl⟩
      rcases key_of_mem_insertEntry he with hk | he
      · rw [hk]; exact hgt
      · exact ha e he
    · have hk : a.1 = k := le_antisymm (not_lt.mp hlt) (not_lt.mp hgt)
      exact List.pairwise_cons.mpr ⟨fun e he => hk ▸ ha e he, hl⟩

theorem mem_insertEntry {k : κ} {v : V} {l : List (κ × V)} (e : κ × V) (h : ∀ e ∈ l, e.1 ≠ k) :
    e ∈ insertEntry k v l ↔ e = (k, v) ∨ e ∈ l := by
  induction l with
  | nil => simp [insertEntry]
  | cons a l ih =>
    unfold insertEntry
    split_ifs with hlt hgt
    · exact List.mem_cons
    · rw [List.mem_cons, ih fun e he => h e (List.mem_cons_of_mem _ he), List.mem_cons]
      exact or_left_comm
    · exact absurd (le_antisymm (not_lt.mp hlt) (not_lt.mp hgt)) (h a List.mem_cons_self)

def setEntry (k : κ) (v : V) (l : List (κ × V)) : List (κ × V) :=
  l.map fun e => if e.1 = k then (k, v) else e

theorem key_setEntry (k : κ) (v : V) (e : κ × V) : (if e.1 = k then (k, v) else e).1 = e.1 := by
  split_ifs with h
  · exact h.symm
  · rfl

theorem sorted_setEntry (k : κ) (v : V) {l : List (κ × V)} (h : l.Pairwise fun a b => a.1 < b.1) :
    (setEntry k v l).Pairwise fun a b => a.1 < b.1 := by
  unfold setEntry
  rw [List.pairwise_map]
  simpa only [key_setEntry] using h

/-- An iterator: its version and the entries from where it points. -/
structure Iterator (κ V : Type) [LinearOrder κ] where
  version : SortedEntries κ V
  rest : List (κ × V)
  suffix : rest <:+ version.list

end SortedEntries

open SortedEntries in
/-- The persistent map of sorted lists of entries. -/
def sortedEntries (κ V : Type) [LinearOrder κ] : OrderedTree κ V where
  Tree := SortedEntries κ V
  Iterator := SortedEntries.Iterator κ V
  createTree := ⟨[], List.Pairwise.nil⟩
  length t := t.list.length
  insert t k v := ⟨insertEntry k v t.list, sorted_insertEntry k v t.sorted⟩
  find t k := ⟨t, t.list.dropWhile fun e => !decide (e.1 = k), List.dropWhile_suffix _⟩
  le t k :=
    match t.list.reverse.find? (·.1 ≤ k) with
    | none => ⟨t, [], List.nil_suffix⟩
    | some floor => ⟨t, t.list.dropWhile fun e => !decide (floor.1 ≤ e.1), List.dropWhile_suffix _⟩
  gt t k := ⟨t, t.list.dropWhile fun e => !decide (k < e.1), List.dropWhile_suffix _⟩
  begin t := ⟨t, t.list, List.suffix_rfl⟩
  next it := ⟨it.version, it.rest.tail, (List.tail_suffix _).trans it.suffix⟩
  entry it := it.rest.head?
  update it v :=
    match it.rest with
    | [] => it.version
    | e :: _ => ⟨setEntry e.1 v it.version.list, sorted_setEntry e.1 v it.version.sorted⟩
  entries t := t.list
  version it := it.version

theorem find?_of_le {l : List (κ × V)} (hl : l.Pairwise fun a b => a.1 < b.1) {e : κ × V} (he : e ∈ l) :
    l.find? (e.1 ≤ ·.1) = some e := by
  obtain ⟨before, after, rfl⟩ := List.append_of_mem he
  rw [List.find?_eq_some_iff_append]
  refine ⟨by simp, before, after, rfl, fun a ha => ?_⟩
  have := (List.pairwise_append.mp hl).2.2 a ha e List.mem_cons_self
  simpa using this

theorem sortedEntries_walk (t : SortedEntries κ V) (n : ℕ) :
    ((sortedEntries κ V).next^[n] ((sortedEntries κ V).begin t)).version = t ∧
      ((sortedEntries κ V).next^[n] ((sortedEntries κ V).begin t)).rest = t.list.drop n := by
  induction n with
  | zero => exact ⟨rfl, rfl⟩
  | succ n ih =>
    rw [Function.iterate_succ_apply']
    refine ⟨ih.1, ?_⟩
    rw [← List.tail_drop, ← ih.2]
    rfl

theorem mem_setEntry {l : List (κ × V)} {k : κ} {v₀ v : V} (hk : (k, v₀) ∈ l) (e : κ × V) :
    e ∈ SortedEntries.setEntry k v l ↔ e = (k, v) ∨ (e ∈ l ∧ e.1 ≠ k) := by
  unfold SortedEntries.setEntry
  rw [List.mem_map]
  constructor
  · rintro ⟨a, ha, rfl⟩
    split_ifs with h
    · exact Or.inl rfl
    · exact Or.inr ⟨ha, h⟩
  · rintro (rfl | ⟨he, hne⟩)
    · exact ⟨(k, v₀), hk, if_pos rfl⟩
    · exact ⟨e, he, if_neg hne⟩

theorem lawful_sortedEntries : (sortedEntries κ V).Lawful where
  sorted t := t.sorted
  length_eq _ := rfl
  entries_createTree := rfl
  mem_insert t k v e h := SortedEntries.mem_insertEntry e h
  entry_find t k := (List.find?_eq_head?_dropWhile_not (fun e : κ × V => decide (e.1 = k)) t.list).symm
  entry_le t k := by
    unfold sortedEntries
    dsimp only
    cases hf : t.list.reverse.find? (·.1 ≤ k) with
    | none => rfl
    | some e =>
      dsimp only
      rw [← List.find?_eq_head?_dropWhile_not (fun e' => decide (e.1 ≤ e'.1)) t.list]
      exact find?_of_le t.sorted (isFloor_of_reverse_find? t.sorted hf).mem
  entry_gt t k := (List.find?_eq_head?_dropWhile_not (fun e : κ × V => decide (k < e.1)) t.list).symm
  entry_walk t n := by
    refine (congrArg List.head? (sortedEntries_walk t n).2).trans ?_
    exact List.head?_drop
  version_find _ _ := rfl
  version_walk t n := (sortedEntries_walk t n).1
  mem_update it k v₀ v e h := by
    obtain ⟨t, _ | ⟨a, rest⟩, hsuffix⟩ := it
    · cases h
    · obtain rfl : a = (k, v₀) := Option.some.inj h
      exact mem_setEntry (hsuffix.mem List.mem_cons_self) e

end OrderedTree

end SonarJavascript
