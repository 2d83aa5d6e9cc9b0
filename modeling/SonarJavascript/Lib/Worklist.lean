import Mathlib.Data.List.Basic
import Mathlib.Order.Basic

/-!
# Worklist algorithms

A worklist algorithm keeps a store and a stack of nodes to visit. One step takes the node on top,
visits it, and pushes the nodes that depend on it when the visit says that something changed. Three
rules about the whole run: an invariant of the visits holds in every state (`run_inv`), a bounded
measure that grows with every change empties the stack (`terminates_of_measure`), and when the stack
is empty every node is settled (`settled_of_done`).

`holds_of_next` carries a property of the store along the run when the visits need a side condition on
the states they start from.
-/

namespace SonarJavascript.Worklist

universe u v

/-- A visit gives the new store and whether the dependents have to be visited again. -/
structure Algorithm (ι : Type u) (σ : Type v) where
  visit : ι → σ → σ × Bool
  dependents : ι → List ι

/-- The store and the nodes to visit, the next one first. -/
@[ext] structure State (ι : Type u) (σ : Type v) where
  store : σ
  pending : List ι

namespace Algorithm

variable {ι : Type u} {σ : Type v} (A : Algorithm ι σ)

/-- One turn of the loop. The dependents are pushed one after the other, so the last is on top. -/
def next (st : State ι σ) : State ι σ :=
  match st.pending with
  | [] => st
  | n :: rest =>
    ⟨(A.visit n st.store).1,
      if (A.visit n st.store).2 then (A.dependents n).reverse ++ rest else rest⟩

/-- The state after `k` turns; a run that is done stays where it is. -/
def run : Nat → State ι σ → State ι σ
  | 0, st => st
  | k + 1, st => run k (A.next st)

/-- The loop ends: after some number of turns nothing is left to visit. -/
def Terminates (st : State ι σ) : Prop := ∃ k, (A.run k st).pending = []

@[simp] theorem run_zero (st : State ι σ) : A.run 0 st = st := rfl

theorem run_succ (k : Nat) (st : State ι σ) : A.run (k + 1) st = A.next (A.run k st) := by
  induction k generalizing st with
  | zero => rfl
  | succ k ih => exact ih (A.next st)

theorem run_add (j k : Nat) (st : State ι σ) : A.run (j + k) st = A.run k (A.run j st) := by
  induction j generalizing st with
  | zero => rw [Nat.zero_add]; rfl
  | succ j ih => rw [Nat.succ_add]; exact ih (A.next st)

theorem next_of_nil {st : State ι σ} (h : st.pending = []) : A.next st = st := by
  unfold next; rw [h]

theorem next_of_cons {st : State ι σ} {n : ι} {rest : List ι} (h : st.pending = n :: rest) :
    A.next st = ⟨(A.visit n st.store).1,
      if (A.visit n st.store).2 then (A.dependents n).reverse ++ rest else rest⟩ := by
  unfold next; rw [h]

variable {A}

/-! ### Invariants -/

theorem run_inv {I : State ι σ → Prop} {st : State ι σ} (h0 : I st)
    (hstep : ∀ st, I st → I (A.next st)) (k : Nat) : I (A.run k st) := by
  induction k with
  | zero => exact h0
  | succ k ih => rw [run_succ]; exact hstep _ ih

/-- Every node ever pending is one of the nodes the run started with, when those are closed under
dependents. -/
theorem pending_mem {nodes : List ι} (hdeps : ∀ n ∈ nodes, ∀ m ∈ A.dependents n, m ∈ nodes)
    {st : State ι σ} (h0 : ∀ n ∈ st.pending, n ∈ nodes) (k : Nat) :
    ∀ n ∈ (A.run k st).pending, n ∈ nodes := by
  refine run_inv (I := fun st => ∀ n ∈ st.pending, n ∈ nodes) h0 ?_ k
  intro st hst
  cases hp : st.pending with
  | nil => rw [next_of_nil A hp]; exact hst
  | cons n rest =>
    rw [next_of_cons A hp]
    rw [hp] at hst
    intro m hm
    dsimp only at hm
    split_ifs at hm with hc
    · rcases List.mem_append.mp hm with hm | hm
      · exact hdeps n (hst n (by simp)) m (List.mem_reverse.mp hm)
      · exact hst m (List.mem_cons_of_mem _ hm)
    · exact hst m (List.mem_cons_of_mem _ hm)

/-- A property of the store that every visit of the run keeps holds all along the run. The visits may
rely on where the run is. -/
theorem holds_of_next {P : σ → Prop} {st : State ι σ} (h0 : P st.store)
    (hvisit : ∀ k n rest, (A.run k st).pending = n :: rest → P (A.run k st).store →
      P (A.visit n (A.run k st).store).1) (k : Nat) : P (A.run k st).store := by
  induction k with
  | zero => exact h0
  | succ k ih =>
    rw [run_succ]
    cases hp : (A.run k st).pending with
    | nil => rw [next_of_nil A hp]; exact ih
    | cons n rest => rw [next_of_cons A hp]; exact hvisit k n rest hp ih

/-! ### Termination -/

/-- What the measure has to do at one visit: grow with a change, never shrink. -/
def Grows (A : Algorithm ι σ) (μ : σ → ℕ) (n : ι) (s : σ) : Prop :=
  μ s ≤ μ (A.visit n s).1 ∧ ((A.visit n s).2 = true → μ s < μ (A.visit n s).1)

/-- A measure that is bounded along the run and grows with every change ends the loop. -/
theorem terminates_of_measure (μ : σ → ℕ) (bound : ℕ) {st : State ι σ}
    (hbound : ∀ k, μ (A.run k st).store ≤ bound)
    (hgrows : ∀ k n rest, (A.run k st).pending = n :: rest → A.Grows μ n (A.run k st).store) :
    A.Terminates st := by
  -- lexicographic: the room left under the bound, then the length of the stack
  suffices h : ∀ room len k, bound - μ (A.run k st).store = room →
      (A.run k st).pending.length = len → A.Terminates st from h _ _ 0 rfl rfl
  intro room
  induction room using Nat.strongRecOn with
  | ind room ihRoom =>
    intro len
    induction len with
    | zero => intro k _ hlen; exact ⟨k, List.length_eq_zero_iff.mp hlen⟩
    | succ len ihLen =>
      intro k hroom hlen
      obtain ⟨n, rest, hp⟩ := List.exists_cons_of_length_eq_add_one hlen
      obtain ⟨hle, hlt⟩ := hgrows k n rest hp
      have hnext : A.run (k + 1) st = _ := (run_succ A k st).trans (next_of_cons A hp)
      have hstore : (A.run (k + 1) st).store = (A.visit n (A.run k st).store).1 := by rw [hnext]
      have hb := hbound (k + 1)
      rw [hstore] at hb
      by_cases hc : (A.visit n (A.run k st).store).2 = true
      · have := hlt hc
        exact ihRoom (bound - μ (A.run (k + 1) st).store) (by rw [hstore]; omega) _ (k + 1) rfl rfl
      · by_cases heq : μ (A.visit n (A.run k st).store).1 = μ (A.run k st).store
        · refine ihLen (k + 1) (by rw [hstore, heq]; exact hroom) ?_
          rw [hp] at hlen
          rw [hnext, if_neg hc]
          simpa using hlen
        · exact ihRoom (bound - μ (A.run (k + 1) st).store) (by rw [hstore]; omega) _ (k + 1) rfl rfl

/-! ### Divergence -/

theorem run_of_nil {st : State ι σ} (h : st.pending = []) (k : Nat) : A.run k st = st := by
  induction k with
  | zero => rfl
  | succ k ih => rw [run_succ, ih, next_of_nil A h]

theorem done_of_le {st : State ι σ} {j k : Nat} (h : (A.run j st).pending = []) (hle : j ≤ k) :
    (A.run k st).pending = [] := by
  obtain ⟨m, rfl⟩ := Nat.exists_eq_add_of_le hle
  rw [run_add, run_of_nil h, h]

theorem terminates_run_iff {st : State ι σ} (k : Nat) : A.Terminates (A.run k st) ↔ A.Terminates st := by
  constructor
  · rintro ⟨j, hj⟩
    exact ⟨k + j, by rw [run_add]; exact hj⟩
  · rintro ⟨j, hj⟩
    exact ⟨j, by rw [← run_add]; exact done_of_le hj (Nat.le_add_left j k)⟩

/-- A run that keeps coming back to states of `I`, whose stacks are not empty, does not end. -/
theorem not_terminates_of_progress {I : State ι σ → Prop} (hpending : ∀ st, I st → st.pending ≠ [])
    (hprogress : ∀ st, I st → ∃ k, 0 < k ∧ I (A.run k st)) {st : State ι σ} (h : I st) :
    ¬ A.Terminates st := by
  rintro ⟨k, hk⟩
  induction k using Nat.strongRecOn generalizing st with
  | ind k ih =>
    obtain ⟨j, hpos, hj⟩ := hprogress st h
    by_cases hle : k ≤ j
    · exact hpending _ hj (done_of_le hk hle)
    · refine ih (k - j) (by omega) hj ?_
      rwa [← run_add, Nat.add_sub_cancel' (by omega)]

theorem run_frame (rest : List ι) {s : σ} {top : List ι} {k : Nat}
    (h : ∀ j < k, (A.run j ⟨s, top⟩).pending ≠ []) :
    A.run k ⟨s, top ++ rest⟩ = ⟨(A.run k ⟨s, top⟩).store, (A.run k ⟨s, top⟩).pending ++ rest⟩ := by
  induction k with
  | zero => rfl
  | succ k ih =>
    have hk := h k (Nat.lt_succ_self k)
    rw [run_succ, ih fun j hj => h j (Nat.lt_succ_of_lt hj), run_succ]
    cases hp : (A.run k ⟨s, top⟩).pending with
    | nil => exact absurd hp hk
    | cons n tail =>
      rw [next_of_cons A hp, next_of_cons A (List.cons_append ..)]
      dsimp only
      split_ifs
      · rw [List.append_assoc]
      · rfl

section Cycle

variable {nodes : List ι} {R : σ → σ → Prop}

/-- The visits do not tell apart the stores related by `R`. -/
def Respects (A : Algorithm ι σ) (nodes : List ι) (R : σ → σ → Prop) : Prop :=
  ∀ n ∈ nodes, ∀ s t, R s t → R (A.visit n s).1 (A.visit n t).1 ∧ (A.visit n s).2 = (A.visit n t).2

/-- Stores that the visits do not tell apart give the same run. -/
theorem run_congr (hdeps : ∀ n ∈ nodes, ∀ m ∈ A.dependents n, m ∈ nodes) (hvisit : A.Respects nodes R)
    {s t : σ} (h : R s t) {pending : List ι} (hpending : ∀ n ∈ pending, n ∈ nodes) (k : Nat) :
    R (A.run k ⟨s, pending⟩).store (A.run k ⟨t, pending⟩).store ∧
      (A.run k ⟨s, pending⟩).pending = (A.run k ⟨t, pending⟩).pending := by
  induction k with
  | zero => exact ⟨h, rfl⟩
  | succ k ih =>
    obtain ⟨hstore, heq⟩ := ih
    have hmem : ∀ n ∈ (A.run k ⟨s, pending⟩).pending, n ∈ nodes := pending_mem hdeps hpending k
    rw [run_succ, run_succ]
    cases hp : (A.run k ⟨s, pending⟩).pending with
    | nil => rw [next_of_nil A hp, next_of_nil A (heq ▸ hp)]; exact ⟨hstore, heq⟩
    | cons n rest =>
      obtain ⟨hR, hchanged⟩ := hvisit n (hmem n (hp ▸ List.mem_cons_self)) _ _ hstore
      rw [next_of_cons A hp, next_of_cons A (heq ▸ hp), hchanged]
      exact ⟨hR, rfl⟩

/-- A cycle: after `k` turns the run is back at a store that the visits do not tell from the one it
started with, and the stack it started with is on top again. -/
theorem not_terminates_of_cycle (hdeps : ∀ n ∈ nodes, ∀ m ∈ A.dependents n, m ∈ nodes)
    (hvisit : A.Respects nodes R) (htrans : ∀ s t u, R s t → R t u → R s u) {s : σ} {top extra : List ι}
    {k : Nat} (hpos : 0 < k) (hmem : ∀ n ∈ top, n ∈ nodes) (htop : top ≠ []) (hrefl : R s s)
    (hbusy : ∀ j < k, (A.run j ⟨s, top⟩).pending ≠ []) (hback : R (A.run k ⟨s, top⟩).store s)
    (hstack : (A.run k ⟨s, top⟩).pending = top ++ extra) (rest : List ι) :
    ¬ A.Terminates ⟨s, top ++ rest⟩ := by
  refine not_terminates_of_progress (I := fun st => R st.store s ∧ ∃ rest, st.pending = top ++ rest)
    ?_ ?_ ⟨hrefl, rest, rfl⟩
  · rintro st ⟨-, rest, h⟩ hnil
    exact htop (List.append_eq_nil_iff.mp (h ▸ hnil)).1
  · rintro ⟨t, pending⟩ ⟨hR, rest, rfl⟩
    have hrun := run_congr hdeps hvisit hR hmem
    refine ⟨k, hpos, ?_⟩
    rw [run_frame rest fun j hj => (hrun j).2 ▸ hbusy j hj]
    refine ⟨htrans _ _ _ (hrun k).1 hback, extra ++ rest, ?_⟩
    dsimp only
    rw [(hrun k).2, hstack, List.append_assoc]

end Cycle

/-! ### Settled nodes -/

/-- What a visit of `n` may do to a property `P` of the nodes: `n` and every node that had it have it
afterwards, or the visit pushes them again. -/
def Settles (A : Algorithm ι σ) (nodes : List ι) (P : ι → σ → Prop) (n : ι) (s : σ) : Prop :=
  ∀ m ∈ nodes, m = n ∨ P m s →
    P m (A.visit n s).1 ∨ ((A.visit n s).2 = true ∧ m ∈ A.dependents n)

/-- All along the run, a node that is not settled is waiting to be visited. -/
theorem settled_or_pending {nodes : List ι} {P : ι → σ → Prop} {st : State ι σ}
    (h0 : ∀ n ∈ nodes, n ∈ st.pending)
    (hvisit : ∀ k n rest, (A.run k st).pending = n :: rest →
      A.Settles nodes P n (A.run k st).store) (k : Nat) :
    ∀ m ∈ nodes, P m (A.run k st).store ∨ m ∈ (A.run k st).pending := by
  induction k with
  | zero => exact fun m hm => Or.inr (h0 m hm)
  | succ k ih =>
    intro m hm
    rw [run_succ]
    cases hp : (A.run k st).pending with
    | nil => rw [next_of_nil A hp]; exact ih m hm
    | cons n rest =>
      rw [next_of_cons A hp]
      have hcase : (m = n ∨ P m (A.run k st).store) ∨ m ∈ rest := by
        rcases ih m hm with h | h
        · exact Or.inl (Or.inr h)
        · rw [hp] at h
          rcases List.mem_cons.mp h with h | h
          · exact Or.inl (Or.inl h)
          · exact Or.inr h
      rcases hcase with h | h
      · rcases hvisit k n rest hp m hm h with h | ⟨hc, h⟩
        · exact Or.inl h
        · exact Or.inr (by simp [hc, h])
      · refine Or.inr ?_
        dsimp only
        split_ifs
        · exact List.mem_append_right _ h
        · exact h

/-- When the loop has ended every node is settled. -/
theorem settled_of_done {nodes : List ι} {P : ι → σ → Prop} {st : State ι σ}
    (h0 : ∀ n ∈ nodes, n ∈ st.pending)
    (hvisit : ∀ k n rest, (A.run k st).pending = n :: rest →
      A.Settles nodes P n (A.run k st).store) {k : Nat} (hdone : (A.run k st).pending = []) :
    ∀ m ∈ nodes, P m (A.run k st).store := by
  intro m hm
  rcases settled_or_pending h0 hvisit k m hm with h | h
  · exact h
  · rw [hdone] at h; simp at h

end Algorithm

end SonarJavascript.Worklist
