import Mathlib.Algebra.Order.BigOperators.Group.Finset
import Mathlib.Data.Finset.Card
import Mathlib.Data.Finset.Lattice.Basic
import Mathlib.Order.WithBot

/-!
# Finite sets with a bottom and a top

The lattice of a value analysis that follows finite sets of constants: `⊥` is "no value yet", a finite
set is "one of these", `⊤` is "any value". Below a finite bound on the constants it has finite height,
measured by `rank`.
-/

namespace SonarJavascript

universe u

/-- What is known about a value. -/
abbrev Known (α : Type u) := WithBot (WithTop (Finset α))

namespace Known

variable {α : Type u}

/-- The value is one of the elements of `s`. -/
def oneOf (s : Finset α) : Known α := ((s : WithTop (Finset α)) : WithBot (WithTop (Finset α)))

theorem oneOf_injective : Function.Injective (oneOf (α := α)) := fun _ _ h =>
  WithTop.coe_injective (WithBot.coe_injective h)

@[simp] theorem oneOf_inj {s t : Finset α} : oneOf s = oneOf t ↔ s = t := oneOf_injective.eq_iff

@[simp] theorem oneOf_ne_bot {s : Finset α} : oneOf s ≠ ⊥ := WithBot.coe_ne_bot

@[simp] theorem oneOf_ne_top {s : Finset α} : oneOf s ≠ ⊤ := fun h =>
  WithTop.coe_ne_top (WithBot.coe_injective h)

@[simp] theorem oneOf_le_oneOf {s t : Finset α} : oneOf s ≤ oneOf t ↔ s ⊆ t := by
  unfold oneOf
  rw [WithBot.coe_le_coe, WithTop.coe_le_coe]

@[simp] theorem oneOf_sup_oneOf [DecidableEq α] (s t : Finset α) : oneOf s ⊔ oneOf t = oneOf (s ∪ t) := rfl

theorem cases (x : Known α) : x = ⊥ ∨ (∃ s, x = oneOf s) ∨ x = ⊤ := by
  rcases x with _ | _ | s
  · exact Or.inl rfl
  · exact Or.inr (Or.inr rfl)
  · exact Or.inr (Or.inl ⟨s, rfl⟩)

theorem top_ne_bot : (⊤ : Known α) ≠ ⊥ := WithBot.coe_ne_bot

/-- A set below which `x` stays, when `x` is a set at all. -/
def Within (bound : Finset α) (x : Known α) : Prop := ∀ s, x = oneOf s → s ⊆ bound

theorem within_bot (bound : Finset α) : Within bound ⊥ := fun _ h => absurd h.symm oneOf_ne_bot

theorem within_top (bound : Finset α) : Within bound ⊤ := fun _ h => absurd h.symm oneOf_ne_top

theorem within_oneOf {bound s : Finset α} : Within bound (oneOf s) ↔ s ⊆ bound :=
  ⟨fun h => h s rfl, fun h _ ht => oneOf_injective ht ▸ h⟩

theorem within_sup [DecidableEq α] {bound : Finset α} {x y : Known α} (hx : Within bound x) (hy : Within bound y) :
    Within bound (x ⊔ y) := by
  rcases cases x with rfl | ⟨s, rfl⟩ | rfl
  · rwa [bot_sup_eq]
  · rcases cases y with rfl | ⟨t, rfl⟩ | rfl
    · rwa [sup_bot_eq]
    · rw [oneOf_sup_oneOf, within_oneOf]
      exact Finset.union_subset (within_oneOf.mp hx) (within_oneOf.mp hy)
    · rwa [sup_top_eq]
  · rwa [top_sup_eq]

/-- The height of `x` in the lattice of the subsets of a set with `n` elements. -/
def rank (n : ℕ) : Known α → ℕ
  | none => 0
  | some none => n + 2
  | some (some s) => s.card + 1

@[simp] theorem rank_bot (n : ℕ) : rank n (⊥ : Known α) = 0 := rfl
@[simp] theorem rank_top (n : ℕ) : rank n (⊤ : Known α) = n + 2 := rfl
@[simp] theorem rank_oneOf (n : ℕ) (s : Finset α) : rank n (oneOf s) = s.card + 1 := rfl

theorem rank_le {bound : Finset α} {x : Known α} (h : Within bound x) :
    rank bound.card x ≤ bound.card + 2 := by
  rcases cases x with rfl | ⟨s, rfl⟩ | rfl
  · exact Nat.zero_le _
  · have := Finset.card_le_card (within_oneOf.mp h)
    rw [rank_oneOf]; omega
  · exact le_refl _

theorem rank_lt_of_lt {bound : Finset α} {x y : Known α} (hx : Within bound x) (hlt : x < y) :
    rank bound.card x < rank bound.card y := by
  rcases cases x with rfl | ⟨s, rfl⟩ | rfl
  · rcases cases y with rfl | ⟨t, rfl⟩ | rfl
    · exact absurd hlt (lt_irrefl _)
    · rw [rank_bot, rank_oneOf]; omega
    · rw [rank_bot, rank_top]; omega
  · have hs := Finset.card_le_card (within_oneOf.mp hx)
    rcases cases y with rfl | ⟨t, rfl⟩ | rfl
    · exact absurd hlt not_lt_bot
    · have hst : s ⊂ t := by
        refine Finset.ssubset_iff_subset_ne.mpr ⟨oneOf_le_oneOf.mp hlt.le, ?_⟩
        rintro rfl
        exact lt_irrefl _ hlt
      have := Finset.card_lt_card hst
      rw [rank_oneOf, rank_oneOf]; omega
    · rw [rank_oneOf, rank_top]; omega
  · exact absurd hlt not_top_lt

theorem rank_le_rank {bound : Finset α} {x y : Known α} (hx : Within bound x) (hle : x ≤ y) :
    rank bound.card x ≤ rank bound.card y := by
  rcases hle.eq_or_lt with rfl | hlt
  · exact le_refl _
  · exact (rank_lt_of_lt hx hlt).le

/-! ### Families -/

variable {ι : Type u}

/-- The height of a family of values over finitely many places. -/
def totalRank (n : ℕ) (places : Finset ι) (f : ι → Known α) : ℕ := ∑ i ∈ places, rank n (f i)

variable {bound : Finset α} {places : Finset ι} {f f' : ι → Known α}

theorem totalRank_le_bound (h : ∀ i, Within bound (f i)) :
    totalRank bound.card places f ≤ places.card * (bound.card + 2) := by
  refine (Finset.sum_le_card_nsmul places _ (bound.card + 2) fun i _ => rank_le (h i)).trans ?_
  rw [Nat.nsmul_eq_mul]

theorem totalRank_le (h : ∀ i, Within bound (f i)) (hle : f ≤ f') :
    totalRank bound.card places f ≤ totalRank bound.card places f' :=
  Finset.sum_le_sum fun i _ => rank_le_rank (h i) (hle i)

theorem totalRank_lt (h : ∀ i, Within bound (f i)) (hle : f ≤ f') {i : ι} (hi : i ∈ places)
    (hlt : f i < f' i) : totalRank bound.card places f < totalRank bound.card places f' :=
  Finset.sum_lt_sum (fun j _ => rank_le_rank (h j) (hle j)) ⟨i, hi, rank_lt_of_lt (h i) hlt⟩

end Known

end SonarJavascript
