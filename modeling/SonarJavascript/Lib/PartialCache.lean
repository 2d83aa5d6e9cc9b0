import Mathlib.Logic.Function.Basic
import Mathlib.Tactic.SplitIfs

/-!
# Walks through a cache that keeps what an exception leaves

`f key` is what has been computed for a key when its computation ends, and the exception that ends it, if any.
A cache keeps the first and forgets the second.

`walk_eq`: a walk gives what it gives without a cache, if the cache agrees with `f` on the keys that it reaches.
-/

namespace SonarJavascript.PartialCache

variable {κ β ε : Type} [DecidableEq κ]

abbrev Cache (κ β : Type) := κ → Option β

/-- A value that is kept is taken for a result. -/
def lookup (f : κ → β × Option ε) (cache : Cache κ β) (key : κ) : Except ε β × Cache κ β :=
  match cache key with
  | some value => (.ok value, cache)
  | none =>
    let cache := Function.update cache key (some (f key).1)
    match (f key).2 with
    | some error => (.error error, cache)
    | none => (.ok (f key).1, cache)

/-- The values of the keys, up to the first exception. -/
def walk (f : κ → β × Option ε) (cache : Cache κ β) : List κ → Except ε (List β) × Cache κ β
  | [] => (.ok [], cache)
  | key :: keys =>
    match lookup f cache key with
    | (.error error, cache) => (.error error, cache)
    | (.ok value, cache) =>
      match walk f cache keys with
      | (.error error, cache) => (.error error, cache)
      | (.ok values, cache) => (.ok (value :: values), cache)

/-- The same without a cache. -/
def outcome (f : κ → β × Option ε) : List κ → Except ε (List β)
  | [] => .ok []
  | key :: keys =>
    match (f key).2 with
    | some error => .error error
    | none => (outcome f keys).map ((f key).1 :: ·)

/-- The keys up to the first exception. -/
def reached (f : κ → β × Option ε) : List κ → List κ
  | [] => []
  | key :: keys => key :: if (f key).2.isSome then [] else reached f keys

/-- What the cache keeps of the keys is complete. -/
def Agrees (f : κ → β × Option ε) (cache : Cache κ β) (keys : List κ) : Prop :=
  ∀ key ∈ keys, ∀ value, cache key = some value → f key = (value, none)

variable {f : κ → β × Option ε} {cache : Cache κ β} {key : κ} {keys : List κ} {value : β}

omit [DecidableEq κ] in
theorem reached_cons_of_none (h : (f key).2 = none) : reached f (key :: keys) = key :: reached f keys := by
  simp [reached, h]

omit [DecidableEq κ] in
theorem mem_of_mem_reached (h : key ∈ reached f keys) : key ∈ keys := by
  induction keys with
  | nil => exact h
  | cons first keys ih =>
    obtain rfl | h := List.mem_cons.mp h
    · exact List.mem_cons_self
    · split_ifs at h
      · exact absurd h List.not_mem_nil
      · exact List.mem_cons_of_mem _ (ih h)

omit [DecidableEq κ] in
theorem outcome_cons_of_none (h : (f key).2 = none) :
    outcome f (key :: keys) = (outcome f keys).map ((f key).1 :: ·) := by
  simp [outcome, h]

theorem walk_cons_of_ok {cache' : Cache κ β} (h : lookup f cache key = (.ok value, cache')) :
    walk f cache (key :: keys) = ((walk f cache' keys).1.map (value :: ·), (walk f cache' keys).2) := by
  simp only [walk, h]
  obtain ⟨result, last⟩ := walk f cache' keys
  cases result <;> rfl

theorem eq_of_update {other : κ} {kept : β} (h : Function.update cache key (some value) other = some kept) :
    cache other = some kept ∨ other = key ∧ kept = value := by
  by_cases hother : other = key
  · subst hother
    rw [Function.update_self] at h
    exact .inr ⟨rfl, (Option.some.inj h).symm⟩
  · rw [Function.update_of_ne hother] at h
    exact .inl h

/-- What is looked up is what is computed. -/
theorem lookup_of_none (hnone : (f key).2 = none)
    (hkeep : ∀ value, cache key = some value → f key = (value, none)) :
    ∃ cache', lookup f cache key = (.ok (f key).1, cache') ∧
      ∀ other value, cache' other = some value → cache other = some value ∨ other = key ∧ value = (f key).1 := by
  unfold lookup
  cases hcache : cache key with
  | some kept => exact ⟨cache, by rw [hkeep kept hcache], fun _ _ h => .inl h⟩
  | none =>
    simp only [hnone]
    exact ⟨_, rfl, fun _ _ h => eq_of_update h⟩

theorem lookup_of_some {error : ε} (hsome : (f key).2 = some error)
    (hkeep : ∀ value, cache key = some value → f key = (value, none)) :
    lookup f cache key = (.error error, Function.update cache key (some (f key).1)) := by
  unfold lookup
  cases hcache : cache key with
  | some kept =>
    rw [hkeep kept hcache] at hsome
    cases hsome
  | none => simp only [hsome]

/-- A walk gives what it gives without a cache, and keeps what it computes. -/
theorem walk_eq (h : Agrees f cache (reached f keys)) :
    (walk f cache keys).1 = outcome f keys ∧
      ∀ key value, (walk f cache keys).2 key = some value →
        cache key = some value ∨ key ∈ reached f keys ∧ value = (f key).1 := by
  induction keys generalizing cache with
  | nil => exact ⟨rfl, fun _ _ h => .inl h⟩
  | cons key keys ih =>
    have hkeep := h key List.mem_cons_self
    cases hexception : (f key).2 with
    | some error =>
      simp only [walk, lookup_of_some hexception hkeep, outcome, hexception, reached, true_and]
      intro other value hother
      obtain hother | ⟨rfl, rfl⟩ := eq_of_update hother
      · exact .inl hother
      · exact .inr ⟨List.mem_cons_self, rfl⟩
    | none =>
      rw [reached_cons_of_none hexception] at h ⊢
      obtain ⟨cache', hlookup, hkept⟩ := lookup_of_none hexception hkeep
      have hagrees : Agrees f cache' (reached f keys) := by
        intro other hother value hvalue
        obtain hvalue | ⟨rfl, rfl⟩ := hkept other value hvalue
        · exact h other (List.mem_cons_of_mem _ hother) value hvalue
        · exact Prod.ext rfl hexception
      obtain ⟨hwalk, hrest⟩ := ih hagrees
      rw [walk_cons_of_ok hlookup, outcome_cons_of_none hexception, hwalk]
      refine ⟨rfl, fun other value hother => ?_⟩
      obtain hother | ⟨hmem, rfl⟩ := hrest other value hother
      · obtain hother | ⟨rfl, rfl⟩ := hkept other value hother
        · exact .inl hother
        · exact .inr ⟨List.mem_cons_self, rfl⟩
      · exact .inr ⟨List.mem_cons_of_mem _ hmem, rfl⟩

omit [DecidableEq κ] in
theorem outcome_of_reached (h : ∀ key ∈ reached f keys, (f key).2 = none) :
    outcome f keys = .ok ((reached f keys).map fun key => (f key).1) := by
  induction keys with
  | nil => rfl
  | cons key keys ih =>
    have hnone := h key List.mem_cons_self
    rw [reached_cons_of_none hnone] at h ⊢
    rw [outcome_cons_of_none hnone, ih fun key hkey => h key (List.mem_cons_of_mem _ hkey)]
    rfl

end SonarJavascript.PartialCache
