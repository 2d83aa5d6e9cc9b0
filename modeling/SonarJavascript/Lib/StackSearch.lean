import Mathlib.Data.Finset.BooleanAlgebra
import Mathlib.Data.Fintype.Card
import Mathlib.Logic.Relation

/-!
# Search with a stack

A search for a node along the successors, around the nodes that are blocked. A node is marked when it is
taken off the stack, so the stack can hold a node twice.

`search_singleton`: it finds the node if and only if there is a way without blocked nodes.
-/

namespace SonarJavascript.StackSearch

variable {α : Type} [DecidableEq α]

/-- A way from the first node to the second one; neither they nor what is between is blocked. -/
def Way (succ : α → List α) (blocked : α → Prop) (a b : α) : Prop :=
  ¬ blocked a ∧ Relation.ReflTransGen (fun a b => b ∈ succ a ∧ ¬ blocked b) a b

variable {succ : α → List α} {blocked : α → Prop} {a b c : α}

omit [DecidableEq α] in
theorem Way.refl (h : ¬ blocked a) : Way succ blocked a a := ⟨h, .refl⟩

omit [DecidableEq α] in
theorem way_head_iff :
    Way succ blocked a c ↔ ¬ blocked a ∧ (a = c ∨ ∃ b ∈ succ a, Way succ blocked b c) := by
  unfold Way
  rw [Relation.ReflTransGen.cases_head_iff]
  grind

omit [DecidableEq α] in
theorem Way.congr {blocked' : α → Prop} (h : ∀ a, blocked a ↔ blocked' a) :
    Way succ blocked a b ↔ Way succ blocked' a b := by
  rw [show blocked = blocked' from funext fun a => propext (h a)]

omit [DecidableEq α] in
theorem Way.trans (h : Way succ blocked a b)
    (hpath : Relation.ReflTransGen (fun a b => b ∈ succ a ∧ ¬ blocked b) b c) : Way succ blocked a c :=
  ⟨h.1, h.2.trans hpath⟩

omit [DecidableEq α] in
theorem Way.entry {inside : α → Prop} {entry : α} (henter : ∀ a, ¬ inside a → ∀ b ∈ succ a, b = entry ∨ ¬ inside b)
    (h : Way succ blocked a b) (ha : a = entry ∨ ¬ inside a) (hb : inside b) : Way succ blocked a entry := by
  obtain ⟨hfree, hpath⟩ := h
  induction hpath using Relation.ReflTransGen.head_induction_on with
  | refl =>
    obtain rfl | ha := ha
    · exact Way.refl hfree
    · exact absurd hb ha
  | @head a next hnext _ ih =>
    obtain rfl | ha := ha
    · exact Way.refl hfree
    · have hrest := ih (henter a ha next hnext.1) hnext.2
      exact way_head_iff.mpr ⟨hfree, .inr ⟨next, hnext.1, hrest⟩⟩

variable [Fintype α]

/-- A turn marks a node, or takes a marked one off the stack and puts none on it. -/
theorem turn_lt (visited : Finset α) (current : α) (stack : List α) {pushed : List α}
    (h : ∀ b ∈ pushed, b ∉ insert current visited) :
    Prod.Lex (· < ·) (· < ·)
      ((insert current visited)ᶜ.card, ((pushed ++ stack).filter (· ∈ insert current visited)).length)
      (visitedᶜ.card, ((current :: stack).filter (· ∈ visited)).length) := by
  have hpushed : pushed.filter (· ∈ insert current visited) = [] :=
    List.filter_eq_nil_iff.mpr fun b hb => by simpa using h b hb
  by_cases hmem : current ∈ visited
  · rw [List.filter_append, hpushed, Finset.insert_eq_of_mem hmem, List.filter_cons_of_pos (by simpa using hmem)]
    exact Prod.Lex.right _ (Nat.lt_succ_self _)
  · refine Prod.Lex.left _ _ (Finset.card_lt_card ?_)
    rw [Finset.compl_insert]
    exact Finset.erase_ssubset (Finset.mem_compl.mpr hmem)

/-- The marked nodes and the stack, with its top first. -/
def search {α : Type} [DecidableEq α] [Fintype α] (succ : α → List α) (blocked : α → Prop)
    [DecidablePred blocked] (target : α) (visited : Finset α) : List α → Bool
  | [] => false
  | current :: stack =>
    if blocked current then search succ blocked target (insert current visited) stack
    else if current = target then true
    else search succ blocked target (insert current visited)
      (((succ current).filter (· ∉ insert current visited)).reverse ++ stack)
termination_by stack => ((visited : Finset α)ᶜ.card, (stack.filter (· ∈ visited)).length)
decreasing_by
  · exact @turn_lt _ _ _ visited current stack [] (by simp)
  · exact turn_lt visited current stack fun b hb => by simpa using (List.mem_filter.mp (List.mem_reverse.mp hb)).2

variable [DecidablePred blocked]

theorem exists_way_of_search {target : α} (visited : Finset α) (stack : List α)
    (h : search succ blocked target visited stack = true) : ∃ a ∈ stack, Way succ blocked a target := by
  induction visited, stack using search.induct succ blocked target with
  | case1 visited => simp [search] at h
  | case2 visited current stack hblocked ih =>
    rw [search, if_pos hblocked] at h
    obtain ⟨a, ha, hway⟩ := ih h
    exact ⟨a, List.mem_cons_of_mem _ ha, hway⟩
  | case3 visited stack hblocked =>
    exact ⟨target, List.mem_cons_self, Way.refl hblocked⟩
  | case4 visited current stack hblocked hne ih =>
    rw [search, if_neg hblocked, if_neg hne] at h
    obtain ⟨a, ha, hway⟩ := ih h
    obtain ha | ha := List.mem_append.mp ha
    · have hmem := List.mem_of_mem_filter (List.mem_reverse.mp ha)
      exact ⟨current, List.mem_cons_self, way_head_iff.mpr ⟨hblocked, .inr ⟨a, hmem, hway⟩⟩⟩
    · exact ⟨a, List.mem_cons_of_mem _ ha, hway⟩

/-- What follows a marked node is marked or on the stack. -/
def Closed (succ : α → List α) (blocked : α → Prop) (target : α) (visited : Finset α) (stack : List α) : Prop :=
  ∀ a ∈ visited, ¬ blocked a → a ≠ target ∧ ∀ b ∈ succ a, b ∈ visited ∨ b ∈ stack

theorem not_way_of_search {target : α} (visited : Finset α) (stack : List α)
    (hclosed : Closed succ blocked target visited stack) (h : search succ blocked target visited stack = false) :
    ∀ a, a ∈ visited ∨ a ∈ stack → ¬ Way succ blocked a target := by
  induction visited, stack using search.induct succ blocked target with
  | case1 visited =>
    rintro a (ha | ha)
    · rintro ⟨hfree, hpath⟩
      have hstay : ∀ b, Relation.ReflTransGen (fun a b => b ∈ succ a ∧ ¬ blocked b) a b →
          b ∈ visited ∧ ¬ blocked b := by
        intro b hpath
        induction hpath with
        | refl => exact ⟨ha, hfree⟩
        | tail _ hnext ih =>
          exact ⟨((hclosed _ ih.1 ih.2).2 _ hnext.1).resolve_right List.not_mem_nil, hnext.2⟩
      exact (hclosed _ (hstay _ hpath).1 (hstay _ hpath).2).1 rfl
    · exact absurd ha List.not_mem_nil
  | case2 visited current stack hblocked ih =>
    rw [search, if_pos hblocked] at h
    have hnext := ih (fun a ha hfree => by
      obtain rfl | ha := Finset.mem_insert.mp ha
      · exact absurd hblocked hfree
      · obtain ⟨hne, hsucc⟩ := hclosed a ha hfree
        refine ⟨hne, fun b hb => ?_⟩
        have := hsucc b hb
        simp only [List.mem_cons, Finset.mem_insert] at this ⊢
        tauto) h
    exact fun a ha => hnext a (by simp only [List.mem_cons, Finset.mem_insert] at ha ⊢; tauto)
  | case3 visited stack hblocked =>
    rw [search, if_neg hblocked, if_pos rfl] at h
    cases h
  | case4 visited current stack hblocked hne ih =>
    rw [search, if_neg hblocked, if_neg hne] at h
    have hnext := ih (fun a ha hfree => by
      refine ⟨?_, fun b hb => ?_⟩
      · obtain rfl | ha := Finset.mem_insert.mp ha
        · exact hne
        · exact (hclosed a ha hfree).1
      · by_cases hmarked : b ∈ insert current visited
        · exact .inl hmarked
        · obtain rfl | ha := Finset.mem_insert.mp ha
          · have hpushed : b ∈ (succ a).filter (· ∉ insert a visited) :=
              List.mem_filter.mpr ⟨hb, by simpa using hmarked⟩
            exact .inr (List.mem_append_left _ (List.mem_reverse.mpr hpushed))
          · have := (hclosed a ha hfree).2 b hb
            simp only [List.mem_cons, Finset.mem_insert, List.mem_append] at this hmarked ⊢
            tauto) h
    exact fun a ha => hnext a (by simp only [List.mem_cons, Finset.mem_insert, List.mem_append] at ha ⊢; tauto)

theorem search_singleton {target : α} : search succ blocked target ∅ [a] = true ↔ Way succ blocked a target := by
  constructor
  · intro h
    obtain ⟨b, hb, hway⟩ := exists_way_of_search ∅ [a] h
    rwa [List.mem_singleton.mp hb] at hway
  · intro hway
    by_contra h
    exact not_way_of_search ∅ [a] (by simp [Closed]) (by simpa using h) a (by simp) hway

end SonarJavascript.StackSearch
