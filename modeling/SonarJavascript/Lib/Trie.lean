import Mathlib.Data.List.Basic
import SonarJavascript.Lib.SumMap

/-!
# Tries

Values under lists of keys. The children of a node are in the order of their insertion, and a node may have both
children and a value.
-/

namespace SonarJavascript

open SumMap

inductive Trie (κ ν : Type)
  | node (children : List (κ × Trie κ ν)) (value : Option ν)

variable {κ ν : Type}

namespace Trie

def empty : Trie κ ν := node [] none

def children : Trie κ ν → List (κ × Trie κ ν)
  | node children _ => children

def value : Trie κ ν → Option ν
  | node _ value => value

/-- The value below the first child, its first child, and so on. -/
def firstLeaf : Trie κ ν → Option ν
  | node [] value => value
  | node ((_, child) :: _) _ => firstLeaf child

variable [DecidableEq κ]

def insert (v : ν) : List κ → Trie κ ν → Trie κ ν
  | [], node children _ => node children (some v)
  | key :: path, node children value =>
    node (upsert (fun child => insert v path (child.getD empty)) key children) value

def descend : List κ → Trie κ ν → Option (Trie κ ν)
  | [], t => some t
  | key :: path, node children _ => (children.lookup key).bind (descend path)

/-- The value under a path. -/
def get (t : Trie κ ν) (path : List κ) : Option ν := (t.descend path).bind value

def ofList (entries : List (List κ × ν)) : Trie κ ν :=
  entries.foldl (fun t entry => t.insert entry.2 entry.1) empty

variable {t : Trie κ ν} {path more : List κ} {key : κ} {v w : ν}

@[simp] theorem descend_nil : t.descend [] = some t := by cases t; rfl

theorem descend_append : t.descend (path ++ more) = (t.descend path).bind (descend more) := by
  induction path generalizing t with
  | nil => simp
  | cons key path ih =>
    obtain ⟨children, value⟩ := t
    rw [List.cons_append, descend, descend]
    cases children.lookup key with
    | none => rfl
    | some child => exact ih

theorem get_append : t.get (path ++ more) = (t.descend path).bind (·.get more) := by
  unfold get
  rw [descend_append, Option.bind_assoc]

theorem descend_empty : (empty : Trie κ ν).descend path = if path = [] then some empty else none := by
  cases path with
  | nil => simp
  | cons key path => simp [empty, descend]

theorem get_empty : (empty : Trie κ ν).get path = none := by
  unfold get
  rw [descend_empty]
  split_ifs <;> rfl

theorem get_insert : (t.insert v path).get more = if more = path then some v else t.get more := by
  induction path generalizing t more with
  | nil =>
    obtain ⟨children, value⟩ := t
    cases more with
    | nil => rfl
    | cons key more => rfl
  | cons key path ih =>
    obtain ⟨children, value⟩ := t
    cases more with
    | nil => rfl
    | cons other more =>
      have hget : ∀ (entries : List (κ × Trie κ ν)), (node entries value).get (other :: more) =
          (entries.lookup other).bind (·.get more) := fun entries => by
        rw [get, descend, Option.bind_assoc]
        rfl
      rw [insert, hget, hget]
      by_cases hkey : other = key
      · subst hkey
        rw [lookup_upsert_self, Option.bind_some, ih]
        cases children.lookup other <;> simp [get_empty]
      · rw [lookup_upsert_of_ne hkey, if_neg fun h => hkey (List.cons.inj h).1]

theorem isSome_descend_insert :
    ((t.insert v path).descend more).isSome ↔ more <+: path ∨ (t.descend more).isSome := by
  induction path generalizing t more with
  | nil =>
    obtain ⟨children, value⟩ := t
    cases more with
    | nil => simp
    | cons key more => simp [insert, descend]
  | cons key path ih =>
    obtain ⟨children, value⟩ := t
    cases more with
    | nil => simp
    | cons other more =>
      rw [insert, descend, descend, List.cons_prefix_cons]
      by_cases hkey : other = key
      · subst hkey
        rw [lookup_upsert_self, Option.bind_some, ih]
        cases children.lookup other with
        | some child => simp
        | none =>
          simp only [Option.getD_none, descend_empty, true_and, Option.bind_none]
          split_ifs with h <;> simp [h]
      · rw [lookup_upsert_of_ne hkey]
        simp [hkey]

/-! ### Every leaf has a value -/

/-- There is a value below every node but the root. -/
def Full (t : Trie κ ν) : Prop :=
  ∀ path child, path ≠ [] → t.descend path = some child → child.children = [] → child.value.isSome

theorem Full.child (h : t.Full) {child : Trie κ ν} (hdescend : t.descend path = some child) : child.Full := by
  intro more leaf hmore hleaf
  refine h (path ++ more) leaf (fun hnil => hmore (List.append_eq_nil_iff.mp hnil).2) ?_
  rw [descend_append, hdescend, Option.bind_some, hleaf]

theorem full_empty : (empty : Trie κ ν).Full := by
  intro path child hne hdescend
  rw [descend_empty, if_neg hne] at hdescend
  cases hdescend

theorem children_eq_nil_iff : t.children = [] ↔ ∀ key, t.descend [key] = none := by
  obtain ⟨children, value⟩ := t
  constructor
  · rintro h key
    obtain rfl : children = [] := h
    rfl
  · intro h
    rcases children with _ | ⟨⟨key, child⟩, rest⟩
    · rfl
    · have := h key
      simp [descend] at this

theorem full_insert (h : t.Full) : (t.insert v path).Full := by
  intro more child hmore hchild hleaf
  have hget : (t.insert v path).get more = child.value := by
    unfold get
    rw [hchild, Option.bind_some]
  rw [← hget, get_insert]
  split_ifs with heq
  · rfl
  · -- no path goes through the node, so it was a leaf before
    have hold : (t.descend more).isSome := by
      have hsome : ((t.insert v path).descend more).isSome := by rw [hchild]; rfl
      refine (isSome_descend_insert.mp hsome).resolve_left fun hprefix => ?_
      obtain ⟨rest, rfl⟩ := hprefix
      rcases rest with _ | ⟨key, rest⟩
      · exact heq (List.append_nil _).symm
      · have hbelow : ((t.insert v (more ++ key :: rest)).descend (more ++ [key])).isSome :=
          isSome_descend_insert.mpr (.inl (by simp))
        rw [descend_append, hchild, Option.bind_some, children_eq_nil_iff.mp hleaf key] at hbelow
        cases hbelow
    obtain ⟨old, hold⟩ := Option.isSome_iff_exists.mp hold
    have hnone : old.children = [] := by
      rw [children_eq_nil_iff]
      intro key
      by_contra hsome
      have hbelow : ((t.insert v path).descend (more ++ [key])).isSome := by
        refine isSome_descend_insert.mpr (.inr ?_)
        rw [descend_append, hold, Option.bind_some]
        exact Option.isSome_iff_ne_none.mpr hsome
      rw [descend_append, hchild, Option.bind_some, children_eq_nil_iff.mp hleaf key] at hbelow
      cases hbelow
    unfold get
    rw [hold]
    exact h more old hmore hold hnone

/-- The first leaf is a value of the trie; where every leaf has a value, it is there unless the trie is empty. -/
theorem exists_get_firstLeaf (t : Trie κ ν) : ∃ path, t.get path = t.firstLeaf ∧
    (path ≠ [] ↔ t.children ≠ []) ∧ ∃ leaf, t.descend path = some leaf ∧ leaf.children = [] := by
  fun_induction firstLeaf t with
  | case1 value => exact ⟨[], rfl, by simp [children], _, descend_nil, rfl⟩
  | case2 key child rest value ih =>
    obtain ⟨path, hget, -, leaf, hleaf, hchildren⟩ := ih
    have hdescend : (node ((key, child) :: rest) value).descend (key :: path) = child.descend path := by
      simp [descend]
    refine ⟨key :: path, ?_, by simp [children], leaf, hdescend.trans hleaf, hchildren⟩
    rw [← hget, get, hdescend]
    rfl

theorem isSome_firstLeaf (h : t.Full) (hne : t.children ≠ []) : t.firstLeaf.isSome := by
  obtain ⟨path, hget, hpath, leaf, hleaf, hchildren⟩ := t.exists_get_firstLeaf
  have hsome := h path leaf (hpath.mpr hne) hleaf hchildren
  rw [← hget, get, hleaf]
  exact hsome

/-! ### The trie of a list -/

theorem ofList_append_singleton (entries : List (List κ × ν)) (entry : List κ × ν) :
    ofList (entries ++ [entry]) = (ofList entries).insert entry.2 entry.1 := by
  simp [ofList]

theorem full_ofList (entries : List (List κ × ν)) : (ofList entries).Full := by
  induction entries using List.reverseRecOn with
  | nil => exact full_empty
  | append_singleton entries entry ih =>
    rw [ofList_append_singleton]
    exact full_insert ih

theorem mem_of_get_ofList {entries : List (List κ × ν)} (h : (ofList entries).get path = some v) :
    (path, v) ∈ entries := by
  induction entries using List.reverseRecOn with
  | nil => simp [ofList, get_empty] at h
  | append_singleton entries entry ih =>
    rw [ofList_append_singleton, get_insert] at h
    split_ifs at h with heq
    · subst heq
      obtain rfl := Option.some.inj h
      simp
    · exact List.mem_append_left _ (ih h)

theorem isSome_get_ofList {entries : List (List κ × ν)} (h : (path, v) ∈ entries) :
    ((ofList entries).get path).isSome := by
  induction entries using List.reverseRecOn with
  | nil => cases h
  | append_singleton entries entry ih =>
    rw [ofList_append_singleton, get_insert]
    split_ifs with heq
    · rfl
    · rcases List.mem_append.mp h with h | h
      · exact ih h
      · obtain rfl := List.mem_singleton.mp h
        exact absurd rfl heq

theorem isSome_descend_ofList {entries : List (List κ × ν)} :
    ((ofList entries).descend path).isSome ↔ path = [] ∨ ∃ entry ∈ entries, path <+: entry.1 := by
  induction entries using List.reverseRecOn with
  | nil =>
    rw [ofList, List.foldl_nil, descend_empty]
    split_ifs with h <;> simp [h]
  | append_singleton entries entry ih =>
    rw [ofList_append_singleton, isSome_descend_insert, ih]
    simp only [List.mem_append, List.mem_singleton, or_and_right, exists_or, exists_eq_left]
    rw [or_comm, or_assoc]

/-- The value found below a path. -/
def search (t : Trie κ ν) (path : List κ) : Option ν := (t.descend path).bind firstLeaf

/-- What is found is an entry below the path, at the path itself only if it is the last one there. -/
theorem mem_of_search {entries : List (List κ × ν)} (h : (ofList entries).search path = some v) :
    ∃ more, (path ++ more, v) ∈ entries ∧
      (more = [] → ∀ entry ∈ entries, path <+: entry.1 → entry.1 = path) := by
  obtain ⟨child, hchild, hleaf⟩ := Option.bind_eq_some_iff.mp h
  obtain ⟨more, hget, hmore, -⟩ := child.exists_get_firstLeaf
  refine ⟨more, mem_of_get_ofList ?_, fun hnil entry hentry hprefix => ?_⟩
  · rw [get_append, hchild, Option.bind_some, hget, hleaf]
  · obtain ⟨rest, hrest⟩ := hprefix
    rcases rest with _ | ⟨key, rest⟩
    · simpa using hrest.symm
    · have hbelow : ((ofList entries).descend (path ++ [key])).isSome :=
        isSome_descend_ofList.mpr (.inr ⟨entry, hentry, rest, by simpa using hrest⟩)
      have hno : child.children = [] := by
        by_contra hne
        exact hmore.mpr hne hnil
      rw [descend_append, hchild, Option.bind_some, children_eq_nil_iff.mp hno key] at hbelow
      cases hbelow

theorem isSome_search_iff {entries : List (List κ × ν)} :
    ((ofList entries).search path).isSome ↔ ∃ entry ∈ entries, path <+: entry.1 := by
  constructor
  · intro h
    obtain ⟨v, hv⟩ := Option.isSome_iff_exists.mp h
    obtain ⟨more, hmem, -⟩ := mem_of_search hv
    exact ⟨_, hmem, List.prefix_append _ _⟩
  · rintro ⟨⟨whole, v⟩, hmem, rest, rfl⟩
    obtain ⟨child, hchild⟩ := Option.isSome_iff_exists.mp
      (isSome_descend_ofList.mpr (.inr ⟨_, hmem, List.prefix_append _ _⟩))
    rw [search, hchild, Option.bind_some]
    by_cases hne : child.children = []
    · have hget : ((ofList entries).get (path ++ rest)).isSome := isSome_get_ofList hmem
      obtain ⟨children, value⟩ := child
      obtain rfl : children = [] := hne
      rw [get_append, hchild, Option.bind_some] at hget
      rcases rest with _ | ⟨key, rest⟩
      · simpa [get, firstLeaf, Trie.value] using hget
      · simp [get, descend] at hget
    · exact isSome_firstLeaf ((full_ofList entries).child hchild) hne

end Trie

end SonarJavascript
