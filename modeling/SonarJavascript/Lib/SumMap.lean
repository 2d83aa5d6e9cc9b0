import Mathlib.Algebra.BigOperators.Group.List.Basic
import Mathlib.Data.Finset.Card
import Mathlib.Data.List.Nodup

/-!
# Maps that add up

A map is the list of its entries. Merging a value into a map adds it to what the key has, so each key has the
sum of the values that have been merged, in whatever order.
-/

namespace SonarJavascript.SumMap

variable {κ ν : Type} [BEq κ] [LawfulBEq κ]

/-- The value of the key becomes what `g` makes of it. -/
def upsert (g : Option ν → ν) (key : κ) : List (κ × ν) → List (κ × ν)
  | [] => [(key, g none)]
  | (other, value) :: entries =>
    if other == key then (other, g (some value)) :: entries else (other, value) :: upsert g key entries

variable {g : Option ν → ν} {key other : κ} {value : ν} {entries : List (κ × ν)}

omit [LawfulBEq κ] in
theorem upsert_nil : upsert g key [] = [(key, g none)] := rfl

omit [LawfulBEq κ] in
theorem upsert_cons : upsert g key ((other, value) :: entries) =
    if other == key then (other, g (some value)) :: entries else (other, value) :: upsert g key entries := rfl

omit [LawfulBEq κ] in
theorem upsert_ne_nil : upsert g key entries ≠ [] := by
  cases entries with
  | nil => simp [upsert_nil]
  | cons entry entries =>
    rw [upsert_cons]
    split_ifs <;> simp

theorem lookup_upsert_self : (upsert g key entries).lookup key = some (g (entries.lookup key)) := by
  induction entries with
  | nil => simp [upsert_nil]
  | cons entry entries ih =>
    obtain ⟨first, value⟩ := entry
    by_cases hfirst : first = key
    · subst hfirst
      simp [upsert_cons]
    · rw [upsert_cons, if_neg (by simpa using hfirst), List.lookup_cons, List.lookup_cons,
        beq_eq_false_iff_ne.mpr (Ne.symm hfirst)]
      exact ih

theorem lookup_upsert_of_ne (h : other ≠ key) : (upsert g key entries).lookup other = entries.lookup other := by
  induction entries with
  | nil => simp [upsert_nil, List.lookup_cons, beq_eq_false_iff_ne.mpr h]
  | cons entry entries ih =>
    obtain ⟨first, value⟩ := entry
    by_cases hfirst : first = key
    · subst hfirst
      simp [upsert_cons, List.lookup_cons, beq_eq_false_iff_ne.mpr h]
    · rw [upsert_cons, if_neg (by simpa using hfirst), List.lookup_cons, List.lookup_cons, ih]

theorem mem_keys_upsert :
    other ∈ (upsert g key entries).map Prod.fst ↔ other = key ∨ other ∈ entries.map Prod.fst := by
  induction entries with
  | nil => simp [upsert_nil]
  | cons entry entries ih =>
    obtain ⟨first, value⟩ := entry
    by_cases hfirst : first = key
    · subst hfirst
      simp [upsert_cons]
    · rw [upsert_cons, if_neg (by simpa using hfirst), List.map_cons, List.map_cons, List.mem_cons, List.mem_cons, ih]
      tauto

theorem nodup_upsert (h : (entries.map Prod.fst).Nodup) : ((upsert g key entries).map Prod.fst).Nodup := by
  induction entries with
  | nil => simp [upsert_nil]
  | cons entry entries ih =>
    obtain ⟨first, value⟩ := entry
    obtain ⟨hnot, hrest⟩ := List.nodup_cons.mp h
    by_cases hfirst : first = key
    · subst hfirst
      simpa [upsert_cons] using h
    · rw [upsert_cons, if_neg (by simpa using hfirst)]
      refine List.nodup_cons.mpr ⟨fun hmem => ?_, ih hrest⟩
      obtain hmem | hmem := mem_keys_upsert.mp hmem
      · exact hfirst hmem
      · exact hnot hmem

/-! ### Entries and lookups -/

theorem mem_iff_lookup (h : (entries.map Prod.fst).Nodup) :
    (key, value) ∈ entries ↔ entries.lookup key = some value := by
  induction entries with
  | nil => simp
  | cons entry entries ih =>
    obtain ⟨first, firstValue⟩ := entry
    obtain ⟨hnot, hrest⟩ := List.nodup_cons.mp h
    by_cases hfirst : key = first
    · subst hfirst
      have hmem : (key, value) ∉ entries := fun hmem => hnot (List.mem_map.mpr ⟨_, hmem, rfl⟩)
      simp [hmem, eq_comm]
    · rw [List.mem_cons, List.lookup_cons, beq_eq_false_iff_ne.mpr hfirst, ih hrest]
      simp [hfirst]

theorem length_filter_eq_card (h : (entries.map Prod.fst).Nodup) (p : ν → Bool) {keys : Finset κ}
    (hkeys : ∀ key, key ∈ keys ↔ ∃ value, entries.lookup key = some value ∧ p value = true) :
    (entries.filter fun entry => p entry.2).length = keys.card := by
  have hnodup : ((entries.filter fun entry => p entry.2).map Prod.fst).Nodup :=
    (List.filter_sublist.map Prod.fst).nodup h
  classical
  rw [← List.length_map Prod.fst, ← List.toFinset_card_of_nodup hnodup]
  congr 1
  ext key
  rw [List.mem_toFinset, hkeys, List.mem_map]
  constructor
  · rintro ⟨⟨key, value⟩, hmem, rfl⟩
    obtain ⟨hmem, hp⟩ := List.mem_filter.mp hmem
    exact ⟨value, (mem_iff_lookup h).mp hmem, hp⟩
  · rintro ⟨value, hlookup, hp⟩
    exact ⟨(key, value), List.mem_filter.mpr ⟨(mem_iff_lookup h).mpr hlookup, hp⟩, rfl⟩

/-- Where entries are written and the first value of a key counts, a key has what it had, or else what the map
has for it. -/
theorem read_foldl {σ β : Type} (read : σ → κ → Option β) (write : σ → κ × ν → σ) (f : κ → ν → β)
    (h : ∀ state key value other, read (write state (key, value)) other =
      if other == key then (read state key).or (some (f key value)) else read state other)
    (entries : List (κ × ν)) (state : σ) (key : κ) :
    read (entries.foldl write state) key = (read state key).or ((entries.lookup key).map (f key)) := by
  induction entries generalizing state with
  | nil => simp
  | cons entry entries ih =>
    obtain ⟨first, value⟩ := entry
    rw [List.foldl_cons, ih, h, List.lookup_cons]
    by_cases hfirst : key = first
    · subst hfirst
      cases read state key <;> simp
    · simp [beq_eq_false_iff_ne.mpr hfirst]

/-! ### Sums -/

variable [AddCommMonoid ν]

/-- The value is added to what the key has. -/
def merge (key : κ) (value : ν) (entries : List (κ × ν)) : List (κ × ν) :=
  upsert (fun
    | none => value
    | some old => old + value) key entries

/-- The sum of the values that have been merged, if any. -/
def total (values : List ν) : Option ν := if values = [] then none else some values.sum

theorem total_eq_none_iff {values : List ν} : total values = none ↔ values = [] := by
  unfold total
  split_ifs with h <;> simp [h]

theorem total_eq_some_iff {values : List ν} : total values = some value ↔ values ≠ [] ∧ values.sum = value := by
  unfold total
  split_ifs with h <;> simp [h]

theorem total_perm {values values' : List ν} (h : values.Perm values') : total values = total values' := by
  have hnil : values = [] ↔ values' = [] := by
    rw [← List.length_eq_zero_iff, h.length_eq, List.length_eq_zero_iff]
  simp only [total, hnil, h.sum_eq]

theorem lookup_merge_self {values : List ν} (h : entries.lookup key = total values) :
    (merge key value entries).lookup key = total (values ++ [value]) := by
  rw [merge, lookup_upsert_self, h]
  cases values with
  | nil => simp [total]
  | cons first values => simp [total, add_assoc]

theorem lookup_merge_of_ne (h : other ≠ key) : (merge key value entries).lookup other = entries.lookup other :=
  lookup_upsert_of_ne h

end SonarJavascript.SumMap
