import Mathlib.Algebra.BigOperators.Group.Finset.Basic
import SonarJavascript.Lib.Exploration

/-!
# Traversal with a queue that holds duplicates

Entries are put into the queue again and again; what they stand for is their key, and it is marked when an
entry is taken out. An entry whose key is marked is skipped, of another one the successors are appended.

When the queue is empty the marked keys are those that can be reached (`Traversed.mem_visited_iff`), and
`capacity` falls with every turn.
-/

namespace SonarJavascript.QueueTraversal

open Exploration

variable {α κ : Type}

/-- The entries that wait, the next one first, and the marked keys in their order. -/
structure Queue (α κ : Type) where
  pending : List α
  visited : List κ

/-- The keys that follow a key. -/
def keys (key : α → κ) (succ : κ → List α) (k : κ) : List κ := (succ k).map key

/-- Between two turns: what follows is marked or waits. -/
structure Traversed (key : α → κ) (succ : κ → List α) (roots : List α) (queue : Queue α κ) : Prop where
  nodup : queue.visited.Nodup
  root_mem : ∀ a ∈ roots, key a ∈ queue.visited ∨ a ∈ queue.pending
  succ_mem : ∀ k ∈ queue.visited, ∀ a ∈ succ k, key a ∈ queue.visited ∨ a ∈ queue.pending
  pending_reaches : ∀ a ∈ queue.pending, Reaches (keys key succ) (roots.map key) (key a)
  visited_reaches : ∀ k ∈ queue.visited, Reaches (keys key succ) (roots.map key) k

variable {key : α → κ} {succ : κ → List α} {roots rest : List α} {visited : List κ} {a : α}

namespace Traversed

theorem start : Traversed key succ roots ⟨roots, []⟩ where
  nodup := List.nodup_nil
  root_mem _ := .inr
  succ_mem _ h := absurd h List.not_mem_nil
  pending_reaches _ h := reaches_root (List.mem_map_of_mem h)
  visited_reaches _ h := absurd h List.not_mem_nil

theorem skip (h : Traversed key succ roots ⟨a :: rest, visited⟩) (hmarked : key a ∈ visited) :
    Traversed key succ roots ⟨rest, visited⟩ where
  nodup := h.nodup
  root_mem b hb := by
    obtain hb | hb := h.root_mem b hb
    · exact .inl hb
    · obtain rfl | hb := List.mem_cons.mp hb
      · exact .inl hmarked
      · exact .inr hb
  succ_mem k hk b hb := by
    obtain hb | hb := h.succ_mem k hk b hb
    · exact .inl hb
    · obtain rfl | hb := List.mem_cons.mp hb
      · exact .inl hmarked
      · exact .inr hb
  pending_reaches b hb := h.pending_reaches b (List.mem_cons_of_mem _ hb)
  visited_reaches := h.visited_reaches

theorem visit (h : Traversed key succ roots ⟨a :: rest, visited⟩) (hnew : key a ∉ visited) :
    Traversed key succ roots ⟨rest ++ succ (key a), visited ++ [key a]⟩ := by
  have hmoved : ∀ b, key b ∈ visited ∨ b ∈ a :: rest →
      key b ∈ visited ++ [key a] ∨ b ∈ rest ++ succ (key a) := by
    rintro b (hb | hb)
    · exact .inl (List.mem_append_left _ hb)
    · obtain rfl | hb := List.mem_cons.mp hb
      · exact .inl (by simp)
      · exact .inr (List.mem_append_left _ hb)
  have ha := h.pending_reaches a List.mem_cons_self
  refine ⟨?_, fun b hb => hmoved b (h.root_mem b hb), fun k hk b hb => ?_, fun b hb => ?_, fun k hk => ?_⟩
  · refine List.nodup_append.mpr ⟨h.nodup, List.nodup_singleton _, fun k hk k' hk' => ?_⟩
    rintro rfl
    exact hnew (List.mem_singleton.mp hk' ▸ hk)
  · obtain hk | hk := List.mem_append.mp hk
    · exact hmoved b (h.succ_mem k hk b hb)
    · rw [List.mem_singleton.mp hk] at hb
      exact .inr (List.mem_append_right _ hb)
  · obtain hb | hb := List.mem_append.mp hb
    · exact h.pending_reaches b (List.mem_cons_of_mem _ hb)
    · exact ha.tail (List.mem_map_of_mem hb)
  · obtain hk | hk := List.mem_append.mp hk
    · exact h.visited_reaches k hk
    · rwa [List.mem_singleton.mp hk]

theorem mem_visited_iff (h : Traversed key succ roots ⟨[], visited⟩) {k : κ} :
    k ∈ visited ↔ Reaches (keys key succ) (roots.map key) k := by
  refine ⟨h.visited_reaches k, ?_⟩
  rintro ⟨root, hroot, hpath⟩
  induction hpath with
  | refl =>
    obtain ⟨a, ha, rfl⟩ := List.mem_map.mp hroot
    exact (h.root_mem a ha).resolve_right List.not_mem_nil
  | tail _ hnext ih =>
    obtain ⟨a, ha, rfl⟩ := List.mem_map.mp hnext
    exact (h.succ_mem _ ih a ha).resolve_right List.not_mem_nil

end Traversed

/-! ### Termination -/

variable [DecidableEq κ]

/-- The entries that wait, and those that will still be put into the queue. -/
def capacity (nodes : Finset κ) (succ : κ → List α) (queue : Queue α κ) : ℕ :=
  queue.pending.length + ∑ k ∈ nodes \ queue.visited.toFinset, (succ k).length

theorem capacity_skip (nodes : Finset κ) (succ : κ → List α) (a : α) (rest : List α) (visited : List κ) :
    capacity nodes succ ⟨rest, visited⟩ < capacity nodes succ ⟨a :: rest, visited⟩ := by
  simp [capacity]

theorem capacity_visit (succ : κ → List α) (rest : List α) {nodes : Finset κ} (hnode : key a ∈ nodes) (hnew : key a ∉ visited) :
    capacity nodes succ ⟨rest ++ succ (key a), visited ++ [key a]⟩ <
      capacity nodes succ ⟨a :: rest, visited⟩ := by
  have hmem : key a ∈ nodes \ visited.toFinset := by simp [hnode, hnew]
  have herase : nodes \ (visited ++ [key a]).toFinset = (nodes \ visited.toFinset).erase (key a) := by
    ext k
    simp only [Finset.mem_sdiff, List.mem_toFinset, List.mem_append, List.mem_singleton, Finset.mem_erase]
    tauto
  unfold capacity
  rw [herase, ← Finset.add_sum_erase _ _ hmem, List.length_append, List.length_cons]
  omega

end SonarJavascript.QueueTraversal
