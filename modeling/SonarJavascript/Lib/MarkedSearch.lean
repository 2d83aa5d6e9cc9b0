import Mathlib.Data.List.Monad
import SonarJavascript.Lib.StackSearch

/-!
# Search with marks

A depth-first search that marks every node it calls itself for, and goes on marking, though no deeper, when it
has found what it looks for. The marks of a search may be handed to the next one.

`found_iff`: a search finds a goal if and only if there is a way to one around the marks that it started with.
-/

namespace SonarJavascript.MarkedSearch

open StackSearch

variable {α : Type} [DecidableEq α]

structure Search (α : Type) where
  marked : Finset α
  found : Bool

def search (succ : α → List α) (goal : α → Bool) : ℕ → α → Search α → Option (Search α)
  | 0, _, _ => none
  | n + 1, a, s =>
    if a ∈ s.marked then some s
    else if s.found then some ⟨insert a s.marked, true⟩
    else if goal a then some ⟨insert a s.marked, true⟩
    else (succ a).foldlM (fun s b => search succ goal n b s) ⟨insert a s.marked, false⟩

variable {succ : α → List α} {goal : α → Bool} {n : ℕ} {a : α} {s s' s'' : Search α} {roots rest : List α}

/-- What a search from the roots has done. -/
structure Outcome (succ : α → List α) (goal : α → Bool) (roots : List α) (s s' : Search α) : Prop where
  subset : s.marked ⊆ s'.marked
  roots_subset : ∀ a ∈ roots, a ∈ s'.marked
  kept : s.found = true → s'.found = true
  closed : s'.found = false → ∀ a ∈ s'.marked, a ∉ s.marked → goal a = false ∧ ∀ b ∈ succ a, b ∈ s'.marked
  exists_way : s.found = false → s'.found = true →
    ∃ a ∈ roots, ∃ b, goal b = true ∧ Way succ (· ∈ s.marked) a b

omit [DecidableEq α] in
theorem way_mono {blocked blocked' : α → Prop} {b : α} (h : ∀ a, blocked' a → blocked a)
    (hway : Way succ blocked a b) : Way succ blocked' a b :=
  ⟨fun hblocked => hway.1 (h a hblocked),
    hway.2.lift id fun _ b hb => ⟨hb.1, fun hblocked => hb.2 (h b hblocked)⟩⟩

omit [DecidableEq α] in
theorem Outcome.nil (s : Search α) : Outcome succ goal [] s s where
  subset := Finset.Subset.refl _
  roots_subset := by simp
  kept := id
  closed _ _ ha hnew := absurd ha hnew
  exists_way hnot hfound := by simp [hnot] at hfound

theorem Outcome.append (h : Outcome succ goal [a] s s') (h' : Outcome succ goal rest s' s'') :
    Outcome succ goal (a :: rest) s s'' where
  subset := h.subset.trans h'.subset
  roots_subset b hb := by
    obtain rfl | hb := List.mem_cons.mp hb
    · exact h'.subset (h.roots_subset b (by simp))
    · exact h'.roots_subset b hb
  kept hfound := h'.kept (h.kept hfound)
  closed hnot b hb hnew := by
    by_cases hfirst : b ∈ s'.marked
    · have hnot' : s'.found = false := by
        cases hfound : s'.found with
        | false => rfl
        | true => rw [h'.kept hfound] at hnot; cases hnot
      obtain ⟨hgoal, hsucc⟩ := h.closed hnot' b hfirst hnew
      exact ⟨hgoal, fun c hc => h'.subset (hsucc c hc)⟩
    · exact h'.closed hnot b hb hfirst
  exists_way hnot hfound := by
    cases hfirst : s'.found with
    | true =>
      obtain ⟨b, hb, c, hgoal, hway⟩ := h.exists_way hnot hfirst
      exact ⟨b, by simp_all, c, hgoal, hway⟩
    | false =>
      obtain ⟨b, hb, c, hgoal, hway⟩ := h'.exists_way hfirst hfound
      exact ⟨b, List.mem_cons_of_mem _ hb, c, hgoal, way_mono (fun d hd => h.subset hd) hway⟩

theorem outcome_foldlM (hsearch : ∀ a s s', search succ goal n a s = some s' → Outcome succ goal [a] s s')
    (h : roots.foldlM (fun s b => search succ goal n b s) s = some s') : Outcome succ goal roots s s' := by
  induction roots generalizing s with
  | nil =>
    obtain rfl : s = s' := Option.some.inj h
    exact Outcome.nil s
  | cons a rest ih =>
    rw [List.foldlM_cons] at h
    obtain ⟨middle, hfirst, hrest⟩ := Option.bind_eq_some_iff.mp h
    exact (hsearch a s middle hfirst).append (ih hrest)

/-- One node that has not been marked: its successors are searched unless it is a goal. -/
theorem Outcome.visit (hnew : a ∉ s.marked) (hnot : s.found = false) (hgoal : goal a = false)
    (h : Outcome succ goal (succ a) ⟨insert a s.marked, false⟩ s') : Outcome succ goal [a] s s' where
  subset := (Finset.subset_insert _ _).trans h.subset
  roots_subset b hb := by
    obtain rfl := List.mem_singleton.mp hb
    exact h.subset (Finset.mem_insert_self _ _)
  kept hfound := by simp [hnot] at hfound
  closed hnot' b hb hnew' := by
    by_cases hself : b = a
    · subst hself
      exact ⟨hgoal, h.roots_subset⟩
    · exact h.closed hnot' b hb (by simp [hself, hnew'])
  exists_way _ hfound := by
    obtain ⟨b, hb, c, hc, hway⟩ := h.exists_way rfl hfound
    have hway : Way succ (· ∈ s.marked) b c := way_mono (fun d hd => Finset.mem_insert_of_mem hd) hway
    exact ⟨a, by simp, c, hc, way_head_iff.mpr ⟨hnew, .inr ⟨b, hb, hway⟩⟩⟩

theorem outcome_search (h : search succ goal n a s = some s') : Outcome succ goal [a] s s' := by
  induction n generalizing a s s' with
  | zero => cases h
  | succ n ih =>
    rw [search] at h
    split_ifs at h with hmarked hfound hgoal
    · obtain rfl := Option.some.inj h
      exact { Outcome.nil s with
        roots_subset := by simpa using hmarked
        exists_way := fun hnot hfound => by simp [hnot] at hfound }
    · obtain rfl := Option.some.inj h
      exact ⟨Finset.subset_insert _ _, by simp, fun _ => rfl, nofun, fun hnot => by simp [hnot] at hfound⟩
    · obtain rfl := Option.some.inj h
      exact ⟨Finset.subset_insert _ _, by simp, fun _ => rfl, nofun,
        fun _ _ => ⟨a, by simp, a, hgoal, Way.refl hmarked⟩⟩
    · exact .visit hmarked (Bool.eq_false_iff.mpr hfound) (Bool.eq_false_iff.mpr hgoal)
        (outcome_foldlM (fun a s s' h => ih h) h)

theorem found_iff (h : search succ goal n a s = some s') (hnot : s.found = false) :
    s'.found = true ↔ ∃ b, goal b = true ∧ Way succ (· ∈ s.marked) a b := by
  have houtcome := outcome_search h
  constructor
  · intro hfound
    obtain ⟨root, hroot, b, hgoal, hway⟩ := houtcome.exists_way hnot hfound
    obtain rfl := List.mem_singleton.mp hroot
    exact ⟨b, hgoal, hway⟩
  · rintro ⟨b, hgoal, hfree, hpath⟩
    by_contra hmissed
    have hclosed := houtcome.closed (Bool.eq_false_iff.mpr hmissed)
    have hend : b ∈ s'.marked ∧ b ∉ s.marked := by
      clear hgoal
      induction hpath with
      | refl => exact ⟨houtcome.roots_subset a (by simp), hfree⟩
      | tail _ hstep ih => exact ⟨(hclosed _ ih.1 ih.2).2 _ hstep.1, hstep.2⟩
    rw [(hclosed b hend.1 hend.2).1] at hgoal
    cases hgoal

/-! ### The end of the search -/

variable [Fintype α]

theorem exists_search (n : ℕ) (a : α) (s : Search α) (h : (s.markedᶜ).card < n) :
    ∃ s', search succ goal n a s = some s' := by
  induction n generalizing a s with
  | zero => exact absurd h (Nat.not_lt_zero _)
  | succ n ih =>
    rw [search]
    split_ifs with hmarked hfound hgoal
    · exact ⟨_, rfl⟩
    · exact ⟨_, rfl⟩
    · exact ⟨_, rfl⟩
    · have hless : ((insert a s.marked)ᶜ).card < n := by
        have hlt : ((insert a s.marked)ᶜ).card < (s.markedᶜ).card :=
          Finset.card_lt_card (Finset.compl_ssubset_compl.mpr (Finset.ssubset_insert hmarked))
        omega
      -- the marks only grow from one successor to the next
      have hfold : ∀ (roots : List α) (s : Search α), (s.markedᶜ).card < n →
          ∃ s', roots.foldlM (fun s b => search succ goal n b s) s = some s' := by
        intro roots
        induction roots with
        | nil => exact fun s _ => ⟨s, rfl⟩
        | cons b rest ihrest =>
          intro s hs
          obtain ⟨middle, hmiddle⟩ := ih b s hs
          have hle : (middle.markedᶜ).card ≤ (s.markedᶜ).card :=
            Finset.card_le_card (Finset.compl_subset_compl.mpr (outcome_search hmiddle).subset)
          obtain ⟨s', hs'⟩ := ihrest middle (by omega)
          exact ⟨s', by rw [List.foldlM_cons, hmiddle]; exact hs'⟩
      exact hfold _ _ hless

end SonarJavascript.MarkedSearch
