import Mathlib.Data.Set.Finite.Basic
import Mathlib.Data.Finset.Union
import Mathlib.Data.Finset.Card
import Mathlib.Data.List.Perm.Basic
import Mathlib.Logic.Relation

/-!
# Exploration of a graph

A deque of nodes to visit, and the set of the nodes that have ever been in it. A visit takes the first node
and puts its successors in front, except those that are in the set. Between two visits the exploration may
be left, and the deque may be brought into another order: what has been visited when the deque is empty is
what can be reached from the roots (`Explored.mem_visited_iff`).
-/

namespace SonarJavascript.Exploration

universe u

variable {α : Type u}

/-- The nodes to visit, the next one first, and all those that have been met. -/
structure Frontier (α : Type u) where
  pending : List α
  discovered : Finset α

section Definitions

variable [DecidableEq α]

namespace Frontier

def start (roots : List α) : Frontier α :=
  ⟨roots, roots.toFinset⟩

/-- The nodes that have not been met go to the front, one after the other. -/
def discover (nodes : List α) (frontier : Frontier α) : Frontier α :=
  nodes.foldl (fun frontier node =>
    if node ∈ frontier.discovered then frontier
    else ⟨node :: frontier.pending, insert node frontier.discovered⟩) frontier

end Frontier

end Definitions

/-- The node can be reached from one of the roots. -/
def Reaches (succ : α → List α) (roots : List α) (node : α) : Prop :=
  ∃ root ∈ roots, Relation.ReflTransGen (fun a b => b ∈ succ a) root node

theorem reaches_root {succ : α → List α} {roots : List α} {node : α} (h : node ∈ roots) :
    Reaches succ roots node :=
  ⟨node, h, .refl⟩

theorem Reaches.tail {succ : α → List α} {roots : List α} {node next : α} (h : Reaches succ roots node)
    (hnext : next ∈ succ node) : Reaches succ roots next := by
  obtain ⟨root, hroot, hpath⟩ := h
  exact ⟨root, hroot, hpath.tail hnext⟩

section Discover

variable [DecidableEq α]

/-- What is put in front, and what has been met then. -/
theorem discover_eq (nodes : List α) (frontier : Frontier α) :
    ∃ added : List α, (frontier.discover nodes).pending = added ++ frontier.pending ∧ added.Nodup ∧
      (∀ node, node ∈ added ↔ node ∈ nodes ∧ node ∉ frontier.discovered) ∧
      ∀ node, node ∈ (frontier.discover nodes).discovered ↔ node ∈ frontier.discovered ∨ node ∈ nodes := by
  induction nodes generalizing frontier with
  | nil => exact ⟨[], rfl, List.nodup_nil, by simp, by simp [Frontier.discover]⟩
  | cons first nodes ih =>
    by_cases hfirst : first ∈ frontier.discovered
    · have hstep : frontier.discover (first :: nodes) = frontier.discover nodes := by
        rw [Frontier.discover, List.foldl_cons, if_pos hfirst]
        rfl
      obtain ⟨added, hpending, hnodup, hadded, hdiscovered⟩ := ih frontier
      rw [hstep]
      refine ⟨added, hpending, hnodup, fun node => ?_, fun node => ?_⟩
      · rw [hadded, List.mem_cons]
        constructor
        · exact fun ⟨hmem, hnew⟩ => ⟨.inr hmem, hnew⟩
        · rintro ⟨rfl | hmem, hnew⟩
          · exact absurd hfirst hnew
          · exact ⟨hmem, hnew⟩
      · rw [hdiscovered, List.mem_cons]
        constructor
        · exact fun h => h.imp_right .inr
        · rintro (hold | rfl | hmem)
          · exact .inl hold
          · exact .inl hfirst
          · exact .inr hmem
    · have hstep : frontier.discover (first :: nodes) =
          (⟨first :: frontier.pending, insert first frontier.discovered⟩ : Frontier α).discover nodes := by
        rw [Frontier.discover, List.foldl_cons, if_neg hfirst]
        rfl
      obtain ⟨added, hpending, hnodup, hadded, hdiscovered⟩ :=
        ih ⟨first :: frontier.pending, insert first frontier.discovered⟩
      simp only [Finset.mem_insert] at hadded hdiscovered
      rw [hstep]
      refine ⟨added ++ [first], by rw [hpending, List.append_assoc]; rfl, ?_, fun node => ?_, fun node => ?_⟩
      · refine hnodup.append (List.nodup_singleton _) ?_
        rw [List.disjoint_singleton]
        exact fun hmem => ((hadded first).mp hmem).2 (.inl rfl)
      · rw [List.mem_append, hadded, List.mem_singleton, List.mem_cons]
        constructor
        · rintro (⟨hmem, hnew⟩ | rfl)
          · exact ⟨.inr hmem, fun hold => hnew (.inr hold)⟩
          · exact ⟨.inl rfl, hfirst⟩
        · rintro ⟨rfl | hmem, hnew⟩
          · exact .inr rfl
          · by_cases heq : node = first
            · exact .inr heq
            · exact .inl ⟨hmem, fun h => h.elim heq hnew⟩
      · rw [hdiscovered, List.mem_cons]
        tauto

end Discover

/-! ### Invariant -/

section Explored

variable [DecidableEq α] {succ : α → List α} {roots visited : List α} {frontier : Frontier α}

/-- What holds between two visits. A node is visited once, or as often as it is among the roots. -/
structure Explored (succ : α → List α) (roots visited : List α) (frontier : Frontier α) : Prop where
  mem_discovered : ∀ node, node ∈ frontier.discovered ↔ node ∈ frontier.pending ∨ node ∈ visited
  root_mem : ∀ node ∈ roots, node ∈ frontier.discovered
  succ_mem : ∀ node ∈ visited, ∀ next ∈ succ node, next ∈ frontier.discovered
  reaches : ∀ node ∈ frontier.discovered, Reaches succ roots node
  count_le : ∀ node, frontier.pending.count node + visited.count node ≤ max 1 (roots.count node)
  le_count : ∀ node, roots.count node ≤ frontier.pending.count node + visited.count node

theorem explored_start : Explored succ roots [] (.start roots) where
  mem_discovered := by simp [Frontier.start]
  root_mem := by simp [Frontier.start]
  succ_mem := nofun
  reaches node hnode := reaches_root (by simpa [Frontier.start] using hnode)
  count_le node := by simp [Frontier.start]
  le_count node := by simp [Frontier.start]

theorem Explored.reorder (h : Explored succ roots visited frontier) {pending : List α}
    (hperm : pending.Perm frontier.pending) : Explored succ roots visited ⟨pending, frontier.discovered⟩ where
  mem_discovered node := by rw [h.mem_discovered, hperm.mem_iff]
  root_mem := h.root_mem
  succ_mem := h.succ_mem
  reaches := h.reaches
  count_le node := by
    rw [hperm.count_eq]
    exact h.count_le node
  le_count node := by
    rw [hperm.count_eq]
    exact h.le_count node

theorem Explored.visit {node : α} {rest : List α} {discovered : Finset α}
    (h : Explored succ roots visited ⟨node :: rest, discovered⟩) :
    Explored succ roots (visited ++ [node]) ((⟨rest, discovered⟩ : Frontier α).discover (succ node)) := by
  obtain ⟨added, hpending, hnodup, hadded, hdiscovered⟩ := discover_eq (succ node) ⟨rest, discovered⟩
  have hnode : node ∈ discovered := (h.mem_discovered node).mpr (.inl List.mem_cons_self)
  have hold : ∀ other, other ∈ discovered ↔ other ∈ node :: rest ∨ other ∈ visited := h.mem_discovered
  have hlast : ∀ other, [node].count other = if node == other then 1 else 0 := fun other => by
    rw [List.count_cons, List.count_nil, Nat.zero_add]
  refine ⟨fun other => ?_, fun other hother => ?_, fun other hother next hnext => ?_, fun other hother => ?_,
    fun other => ?_, fun other => ?_⟩
  · rw [hdiscovered, hpending, hold, List.mem_append, List.mem_append, hadded, hold]
    simp only [List.mem_cons, List.not_mem_nil, or_false]
    tauto
  · exact (hdiscovered other).mpr (.inl (h.root_mem other hother))
  · rw [hdiscovered]
    rcases List.mem_append.mp hother with hother | hother
    · exact .inl (h.succ_mem other hother next hnext)
    · rw [List.mem_singleton.mp hother] at hnext
      exact .inr hnext
  · rcases (hdiscovered other).mp hother with hother | hother
    · exact h.reaches other hother
    · exact (h.reaches node hnode).tail hother
  · have hcount := h.count_le other
    rw [hpending, List.count_append, List.count_append]
    rw [List.count_cons] at hcount
    rw [hlast]
    show added.count other + rest.count other + _ ≤ _
    by_cases hother : other ∈ added
    · -- a node that is put in front has not been met before
      have hnew : other ∉ discovered := ((hadded other).mp hother).2
      rw [hold, not_or] at hnew
      have hzero : rest.count other = 0 := List.count_eq_zero.mpr fun hmem => hnew.1 (List.mem_cons_of_mem _ hmem)
      have hvisited : visited.count other = 0 := List.count_eq_zero.mpr hnew.2
      have hne : (node == other) = false := by
        rw [beq_eq_false_iff_ne]
        rintro rfl
        exact hnew.1 List.mem_cons_self
      rw [List.count_eq_one_of_mem hnodup hother, hzero, hvisited, hne]
      simp
    · rw [List.count_eq_zero.mpr hother]
      omega
  · have hcount := h.le_count other
    rw [List.count_cons] at hcount
    rw [hpending, List.count_append, List.count_append, hlast]
    show _ ≤ added.count other + rest.count other + _
    omega

theorem Explored.mem_visited_iff (h : Explored succ roots visited frontier) (hpending : frontier.pending = [])
    {node : α} : node ∈ visited ↔ Reaches succ roots node := by
  have hvisited : ∀ other, other ∈ frontier.discovered → other ∈ visited := by
    intro other hother
    rcases (h.mem_discovered other).mp hother with hmem | hmem
    · rw [hpending] at hmem
      cases hmem
    · exact hmem
  constructor
  · exact fun hnode => h.reaches node ((h.mem_discovered node).mpr (.inr hnode))
  · rintro ⟨root, hroot, hpath⟩
    induction hpath with
    | refl => exact hvisited root (h.root_mem root hroot)
    | tail _ hnext ih => exact hvisited _ (h.succ_mem _ ih _ hnext)

theorem Explored.reaches_visited (h : Explored succ roots visited frontier) {node : α} (hnode : node ∈ visited) :
    Reaches succ roots node :=
  h.reaches node ((h.mem_discovered node).mpr (.inr hnode))

theorem Explored.nodup_visited (h : Explored succ roots visited frontier) (hroots : roots.Nodup) :
    visited.Nodup := by
  rw [List.nodup_iff_count_le_one]
  intro node
  have hcount := h.count_le node
  have hone := List.nodup_iff_count_le_one.mp hroots node
  omega

theorem Explored.nodup_roots (h : Explored succ roots visited frontier) (hpending : frontier.pending = [])
    (hvisited : visited.Nodup) : roots.Nodup := by
  rw [List.nodup_iff_count_le_one]
  intro node
  have hcount := h.le_count node
  rw [hpending, List.count_nil] at hcount
  have hone := List.nodup_iff_count_le_one.mp hvisited node
  omega

end Explored

/-! ### Termination -/

section Termination

variable [DecidableEq α] {succ : α → List α}

/-- How many visits there can still be, when all successors are among these nodes. -/
def remaining (nodes : Finset α) (frontier : Frontier α) : ℕ :=
  (nodes \ frontier.discovered).card + frontier.pending.length

/-- Only finitely many nodes are the successor of another one, when only finitely many have any. -/
theorem exists_successors (h : {node | succ node ≠ []}.Finite) :
    ∃ nodes : Finset α, ∀ node, ∀ next ∈ succ node, next ∈ nodes := by
  refine ⟨h.toFinset.biUnion fun node => (succ node).toFinset, fun node next hnext => ?_⟩
  rw [Finset.mem_biUnion]
  exact ⟨node, h.mem_toFinset.mpr (List.ne_nil_of_mem hnext), List.mem_toFinset.mpr hnext⟩

theorem remaining_discover {nodes : Finset α} {next : List α} (h : ∀ node ∈ next, node ∈ nodes)
    (frontier : Frontier α) : remaining nodes (frontier.discover next) = remaining nodes frontier := by
  obtain ⟨added, hpending, hnodup, hadded, hdiscovered⟩ := discover_eq next frontier
  have hsplit : nodes \ frontier.discovered = nodes \ (frontier.discover next).discovered ∪ added.toFinset := by
    ext node
    simp only [Finset.mem_union, Finset.mem_sdiff, hdiscovered, List.mem_toFinset, hadded]
    constructor
    · intro ⟨hmem, hnew⟩
      by_cases hnext : node ∈ next
      · exact .inr ⟨hnext, hnew⟩
      · exact .inl ⟨hmem, fun hor => hor.elim hnew hnext⟩
    · rintro (⟨hmem, hnew⟩ | ⟨hnext, hnew⟩)
      · exact ⟨hmem, fun hold => hnew (.inl hold)⟩
      · exact ⟨h node hnext, hnew⟩
  have hdisjoint : Disjoint (nodes \ (frontier.discover next).discovered) added.toFinset := by
    rw [Finset.disjoint_left]
    intro node hnode hmem
    rw [List.mem_toFinset, hadded] at hmem
    exact (Finset.mem_sdiff.mp hnode).2 ((hdiscovered node).mpr (.inr hmem.1))
  rw [remaining, remaining, hsplit, Finset.card_union_of_disjoint hdisjoint, List.toFinset_card_of_nodup hnodup,
    hpending, List.length_append]
  omega

theorem remaining_visit {nodes : Finset α} (h : ∀ node, ∀ next ∈ succ node, next ∈ nodes) {node : α}
    {rest : List α} {discovered : Finset α} :
    remaining nodes ((⟨rest, discovered⟩ : Frontier α).discover (succ node)) + 1 =
      remaining nodes ⟨node :: rest, discovered⟩ := by
  rw [remaining_discover (h node)]
  show _ + rest.length + 1 = _ + (node :: rest).length
  rw [List.length_cons, Nat.add_assoc]

end Termination

end SonarJavascript.Exploration
