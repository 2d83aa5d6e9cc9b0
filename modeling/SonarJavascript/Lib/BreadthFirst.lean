import Mathlib.Data.List.Nodup
import SonarJavascript.Lib.Exploration

/-!
# Traversal of a forest with a queue

A visit takes the first node of the queue and appends its successors. Nothing is marked, so the traversal is
for graphs in which each node is met once. The visits go through the levels one after the other
(`traverse_iff`), and come to what can be reached from the roots (`mem_traverse_iff`).
-/

namespace SonarJavascript.BreadthFirst

open Exploration

variable {α : Type}

/-- The visits in their order. There is no result when the fuel does not suffice. -/
def traverse (succ : α → List α) : ℕ → List α → Option (List α)
  | _, [] => some []
  | 0, _ :: _ => none
  | fuel + 1, a :: rest => (traverse succ fuel (rest ++ succ a)).map (a :: ·)

/-- The nodes at a distance from the roots. -/
def level (succ : α → List α) (roots : List α) : ℕ → List α
  | 0 => roots
  | n + 1 => (level succ roots n).flatMap succ

/-- The levels before one of them. -/
def levels (succ : α → List α) (roots : List α) (n : ℕ) : List α := (List.range n).flatMap (level succ roots)

variable {succ : α → List α} {roots out : List α} {a : α} {fuel n : ℕ}

@[simp] theorem traverse_nil : traverse succ fuel [] = some [] := by cases fuel <;> rfl

theorem traverse_succ_cons (rest : List α) :
    traverse succ (fuel + 1) (a :: rest) = (traverse succ fuel (rest ++ succ a)).map (a :: ·) := rfl

@[simp] theorem level_zero : level succ roots 0 = roots := rfl

theorem level_succ : level succ roots (n + 1) = (level succ roots n).flatMap succ := rfl

theorem level_flatMap : level succ (roots.flatMap succ) n = level succ roots (n + 1) := by
  induction n with
  | zero => rfl
  | succ n ih => exact congrArg (List.flatMap succ) ih

theorem levels_succ : levels succ roots (n + 1) = roots ++ levels succ (roots.flatMap succ) n := by
  have hrest : level succ (roots.flatMap succ) = fun n => level succ roots (n + 1) := funext fun _ => level_flatMap
  rw [levels, List.range_succ_eq_map, List.flatMap_cons, List.flatMap_map, levels, hrest]
  rfl

theorem traverse_append (nodes rest : List α) : traverse succ (nodes.length + fuel) (nodes ++ rest) =
    (traverse succ fuel (rest ++ nodes.flatMap succ)).map (nodes ++ ·) := by
  induction nodes generalizing rest with
  | nil => simp
  | cons a nodes ih =>
    rw [List.length_cons, Nat.add_right_comm, List.cons_append, traverse_succ_cons, List.append_assoc, ih]
    simp [Function.comp_def]

theorem traverse_level : traverse succ (roots.length + fuel) roots =
    (traverse succ fuel (roots.flatMap succ)).map (roots ++ ·) := by
  have happend : traverse succ (roots.length + fuel) (roots ++ []) = _ := traverse_append roots []
  simpa using happend

theorem length_le_of_traverse (h : traverse succ fuel roots = some out) : roots.length ≤ fuel := by
  induction fuel generalizing roots out with
  | zero =>
    cases roots with
    | nil => simp
    | cons a rest => simp [traverse] at h
  | succ fuel ih =>
    cases roots with
    | nil => simp
    | cons a rest =>
      rw [traverse_succ_cons, Option.map_eq_some_iff] at h
      obtain ⟨out', h, -⟩ := h
      have hlength := ih h
      rw [List.length_append] at hlength
      rw [List.length_cons]
      omega

theorem traverse_levels (hempty : level succ roots n = []) (hfuel : (levels succ roots n).length ≤ fuel) :
    traverse succ fuel roots = some (levels succ roots n) := by
  induction n generalizing roots fuel with
  | zero =>
    rw [level_zero] at hempty
    simp [hempty, levels]
  | succ n ih =>
    rw [levels_succ, List.length_append] at hfuel
    obtain ⟨rest, rfl⟩ := Nat.exists_eq_add_of_le (Nat.le_of_add_right_le hfuel)
    rw [traverse_level, ih (level_flatMap.trans hempty) (by omega), levels_succ]
    rfl

theorem eq_levels_of_traverse (h : traverse succ fuel roots = some out) :
    ∃ n, level succ roots n = [] ∧ out = levels succ roots n := by
  induction fuel using Nat.strong_induction_on generalizing roots out with
  | _ fuel ih =>
    cases hroots : roots with
    | nil =>
      subst hroots
      rw [traverse_nil, Option.some_inj] at h
      exact ⟨0, rfl, h.symm⟩
    | cons a rest =>
      obtain ⟨less, hless⟩ := Nat.exists_eq_add_of_le (length_le_of_traverse h)
      rw [hless, traverse_level, Option.map_eq_some_iff] at h
      obtain ⟨out', h, rfl⟩ := h
      have hlt : less < fuel := by
        rw [hless, hroots, List.length_cons]
        omega
      obtain ⟨n, hempty, rfl⟩ := ih less hlt h
      rw [← hroots]
      exact ⟨n + 1, level_flatMap.symm.trans hempty, levels_succ.symm⟩

theorem traverse_iff : (∃ fuel, traverse succ fuel roots = some out) ↔
    ∃ n, level succ roots n = [] ∧ out = levels succ roots n := by
  constructor
  · rintro ⟨fuel, h⟩
    exact eq_levels_of_traverse h
  · rintro ⟨n, hempty, rfl⟩
    exact ⟨_, traverse_levels hempty le_rfl⟩

theorem traverse_mono (h : traverse succ fuel roots = some out) {more : ℕ} (hle : fuel ≤ more) :
    traverse succ more roots = some out := by
  induction fuel generalizing roots out more with
  | zero =>
    cases roots with
    | nil => simpa using h
    | cons a rest => cases h
  | succ fuel ih =>
    cases roots with
    | nil => simpa using h
    | cons a rest =>
      obtain ⟨more, rfl⟩ := Nat.exists_eq_succ_of_ne_zero (Nat.ne_zero_of_lt hle)
      rw [traverse_succ_cons, Option.map_eq_some_iff] at h ⊢
      obtain ⟨out', h, rfl⟩ := h
      exact ⟨out', ih h (Nat.le_of_succ_le_succ hle), rfl⟩

theorem traverse_unique {fuel' : ℕ} {out' : List α} (h : traverse succ fuel roots = some out)
    (h' : traverse succ fuel' roots = some out') : out = out' := by
  have hmore := traverse_mono h (Nat.le_max_left fuel fuel')
  have hmore' := traverse_mono h' (Nat.le_max_right fuel fuel')
  exact Option.some.inj (hmore.symm.trans hmore')

/-! ### What is met -/

theorem reaches_iff_mem_level : Reaches succ roots a ↔ ∃ n, a ∈ level succ roots n := by
  constructor
  · rintro ⟨root, hroot, hpath⟩
    induction hpath with
    | refl => exact ⟨0, hroot⟩
    | tail _ hnext ih =>
      obtain ⟨n, hmem⟩ := ih
      exact ⟨n + 1, List.mem_flatMap.mpr ⟨_, hmem, hnext⟩⟩
  · rintro ⟨n, hmem⟩
    induction n generalizing a with
    | zero => exact reaches_root hmem
    | succ n ih =>
      obtain ⟨b, hb, ha⟩ := List.mem_flatMap.mp hmem
      exact (ih hb).tail ha

theorem level_eq_nil_of_le (hempty : level succ roots n = []) {m : ℕ} (h : n ≤ m) : level succ roots m = [] := by
  induction m, h using Nat.le_induction with
  | base => exact hempty
  | succ m _ ih => rw [level_succ, ih, List.flatMap_nil]

theorem mem_levels_iff (hempty : level succ roots n = []) : a ∈ levels succ roots n ↔ Reaches succ roots a := by
  rw [reaches_iff_mem_level, levels]
  simp only [List.mem_flatMap, List.mem_range]
  constructor
  · rintro ⟨m, -, hmem⟩
    exact ⟨m, hmem⟩
  · rintro ⟨m, hmem⟩
    by_cases hm : m < n
    · exact ⟨m, hm, hmem⟩
    · rw [level_eq_nil_of_le hempty (by omega)] at hmem
      cases hmem

theorem mem_traverse_iff (h : traverse succ fuel roots = some out) : a ∈ out ↔ Reaches succ roots a := by
  obtain ⟨n, hempty, rfl⟩ := eq_levels_of_traverse h
  exact mem_levels_iff hempty

/-- Each node that is met is listed once, under one node or as a root. -/
structure Forest (succ : α → List α) (roots : List α) : Prop where
  roots_nodup : roots.Nodup
  succ_nodup : ∀ a, Reaches succ roots a → (succ a).Nodup
  not_root : ∀ a b, Reaches succ roots a → b ∈ succ a → b ∉ roots
  parent : ∀ a a' b, Reaches succ roots a → Reaches succ roots a' → b ∈ succ a → b ∈ succ a' → a = a'

theorem reaches_of_mem_level (h : a ∈ level succ roots n) : Reaches succ roots a := reaches_iff_mem_level.mpr ⟨n, h⟩

namespace Forest

variable (h : Forest succ roots)
include h

theorem level_nodup : (level succ roots n).Nodup := by
  induction n with
  | zero => exact h.roots_nodup
  | succ n ih =>
    refine List.nodup_flatMap.mpr ⟨fun a ha => h.succ_nodup a (reaches_of_mem_level ha), ?_⟩
    refine ih.imp_of_mem fun {a a'} ha ha' hne b hb hb' => ?_
    exact hne (h.parent a a' b (reaches_of_mem_level ha) (reaches_of_mem_level ha') hb hb')

theorem level_unique {m : ℕ} (hm : a ∈ level succ roots m) (hn : a ∈ level succ roots n) : m = n := by
  induction m generalizing n a with
  | zero =>
    cases n with
    | zero => rfl
    | succ n =>
      obtain ⟨b, hb, ha⟩ := List.mem_flatMap.mp hn
      exact absurd hm (h.not_root b a (reaches_of_mem_level hb) ha)
  | succ m ih =>
    obtain ⟨b, hb, ha⟩ := List.mem_flatMap.mp hm
    cases n with
    | zero => exact absurd hn (h.not_root b a (reaches_of_mem_level hb) ha)
    | succ n =>
      obtain ⟨b', hb', ha'⟩ := List.mem_flatMap.mp hn
      obtain rfl := h.parent b b' a (reaches_of_mem_level hb) (reaches_of_mem_level hb') ha ha'
      rw [ih hb hb']

theorem levels_nodup : (levels succ roots n).Nodup := by
  refine List.nodup_flatMap.mpr ⟨fun m _ => h.level_nodup, List.nodup_range.imp fun {m m'} hne a ha ha' => ?_⟩
  exact hne (h.level_unique ha ha')

theorem exists_level_eq_nil (hfinite : {a | Reaches succ roots a}.Finite) : ∃ n, level succ roots n = [] := by
  by_contra hnone
  push Not at hnone
  choose node hnode using fun n => List.exists_mem_of_ne_nil _ (hnone n)
  have hinjective : Function.Injective node := fun m n hmn => h.level_unique (hnode m) (hmn ▸ hnode n)
  have hreaches : ∀ n, node n ∈ {a | Reaches succ roots a} := fun n => reaches_of_mem_level (hnode n)
  exact Set.infinite_of_injective_forall_mem hinjective hreaches hfinite

theorem exists_traverse (hfinite : {a | Reaches succ roots a}.Finite) :
    ∃ fuel out, traverse succ fuel roots = some out := by
  obtain ⟨n, hempty⟩ := h.exists_level_eq_nil hfinite
  exact ⟨_, _, traverse_levels hempty le_rfl⟩

theorem traverse_nodup (htraverse : traverse succ fuel roots = some out) : out.Nodup := by
  obtain ⟨n, -, rfl⟩ := eq_levels_of_traverse htraverse
  exact h.levels_nodup

end Forest

end SonarJavascript.BreadthFirst
