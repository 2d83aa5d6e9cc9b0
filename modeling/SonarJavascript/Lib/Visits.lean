import Mathlib.Algebra.BigOperators.Group.Finset.Basic
import Mathlib.Algebra.GroupWithZero.Nat
import Mathlib.Algebra.Order.BigOperators.Group.Finset
import SonarJavascript.Lib.Exploration
import SonarJavascript.Lib.Unfolding

/-!
# Recursion along successors without a set of visited nodes

A procedure that visits its argument and then calls itself for each successor makes its visits in preorder,
and it visits a node as often as there are ways to it. `exists_preorder_iff`: among finitely many nodes, it
ends without visiting an inner node twice if and only if each of these is named at most once, by the list it
starts with and by the successors of the nodes in reach.
-/

namespace SonarJavascript.Visits

open Exploration Unfolding

variable {α β : Type}

/-- The lists of all elements, if there are all of them. -/
def gather (f : α → Option (List β)) : List α → Option (List β)
  | [] => some []
  | a :: l => (f a).bind fun first => (gather f l).map (first ++ ·)

/-- The visits of the recursion from a node, which is at most so deep. -/
def preorder (succ : α → List α) : ℕ → α → Option (List α)
  | 0, _ => none
  | n + 1, a => (gather (preorder succ n) (succ a)).map (a :: ·)

variable {succ : α → List α} {n m : ℕ} {a b : α} {roots l : List α}

theorem gather_cons_eq_some {f : α → Option (List β)} {l : List α} {r : List β} :
    gather f (a :: l) = some r ↔ ∃ first rest, f a = some first ∧ gather f l = some rest ∧ first ++ rest = r := by
  simp [gather, Option.bind_eq_some_iff]

theorem gather_isSome_iff {f : α → Option (List β)} {l : List α} :
    (gather f l).isSome ↔ ∀ a ∈ l, (f a).isSome := by
  induction l with
  | nil => simp [gather]
  | cons a l ih => cases h : f a <;> simp [gather, h, ih]

theorem gather_append (f : α → Option (List β)) (l l' : List α) :
    gather f (l ++ l') = (gather f l).bind fun first => (gather f l').map (first ++ ·) := by
  induction l with
  | nil => simp [gather]
  | cons a l ih => cases h : f a <;> cases h' : gather f l <;> simp_all [gather, Option.map_map, Function.comp_def]

theorem preorder_isSome_iff : (preorder succ n a).isSome ↔ Unfolds succ (fun _ => True) n a := by
  induction n generalizing a with
  | zero => simp [preorder, Unfolds]
  | succ n ih => simp [preorder, Unfolds, gather_isSome_iff, ih]

theorem walk_eq {σ : Type} (walk : ℕ → α → σ → Option σ) (visit : σ → α → σ) (hzero : ∀ a s, walk 0 a s = none)
    (hsucc : ∀ n a s, walk (n + 1) a s = (succ a).foldlM (fun s b => walk n b s) (visit s a)) (s : σ) :
    walk n a s = (preorder succ n a).map fun l => l.foldl visit s := by
  induction n generalizing a s with
  | zero => rw [hzero]; rfl
  | succ n ih =>
    have hlist : ∀ (l : List α) (s : σ), l.foldlM (fun s b => walk n b s) s =
        (gather (preorder succ n) l).map fun visits => visits.foldl visit s := by
      intro l
      induction l with
      | nil => exact fun s => rfl
      | cons b l ihl =>
        intro s
        rw [List.foldlM_cons, ih]
        cases h : preorder succ n b with
        | none => simp [gather, h]
        | some first => cases h' : gather (preorder succ n) l <;> simp [gather, h, ihl, h']
    rw [hsucc, hlist, preorder, Option.map_map]
    rfl

theorem reaches_cons : Reaches succ (a :: roots) b ↔ Reaches succ [a] b ∨ Reaches succ roots b := by
  simp [Reaches]

theorem reaches_singleton : Reaches succ [a] b ↔ b = a ∨ Reaches succ (succ a) b := by
  simp only [Reaches, List.mem_singleton, exists_eq_left]
  rw [Relation.ReflTransGen.cases_head_iff]
  exact or_congr_left eq_comm

theorem mem_iff_reaches (h : gather (preorder succ n) roots = some l) : a ∈ l ↔ Reaches succ roots a := by
  induction n generalizing roots l with
  | zero =>
    cases roots with
    | nil => cases h; simp [Reaches]
    | cons b roots => cases h
  | succ n ih =>
    induction roots generalizing l with
    | nil => cases h; simp [Reaches]
    | cons b roots ihl =>
      obtain ⟨first, rest, hfirst, hrest, rfl⟩ := gather_cons_eq_some.mp h
      obtain ⟨below, hbelow, rfl⟩ := Option.map_eq_some_iff.mp hfirst
      rw [List.mem_append, List.mem_cons, ih hbelow, ihl hrest, reaches_cons, reaches_singleton]

variable [DecidableEq α]

theorem count_eq (h : gather (preorder succ n) roots = some l) :
    l.count a = roots.count a + (l.map fun b => (succ b).count a).sum := by
  induction n generalizing roots l with
  | zero =>
    cases roots with
    | nil => cases h; rfl
    | cons b roots => cases h
  | succ n ih =>
    induction roots generalizing l with
    | nil => cases h; rfl
    | cons b roots ihl =>
      obtain ⟨first, rest, hfirst, hrest, rfl⟩ := gather_cons_eq_some.mp h
      obtain ⟨below, hbelow, rfl⟩ := Option.map_eq_some_iff.mp hfirst
      rw [List.count_append, List.count_cons, ih hbelow, ihl hrest, List.count_cons, List.map_append,
        List.sum_append, List.map_cons, List.sum_cons]
      omega

variable [Fintype α] {inner : α → Prop}

open Classical in
/-- How often a node is named in what can be reached. -/
noncomputable def naming (succ : α → List α) (roots : List α) (a : α) : ℕ :=
  roots.count a + ∑ b with Reaches succ roots b, (succ b).count a

open Classical in
theorem sum_succ (h : gather (preorder succ n) roots = some l) :
    (l.map fun b => (succ b).count a).sum = ∑ b with Reaches succ roots b, l.count b * (succ b).count a := by
  rw [Finset.sum_list_map_count]
  refine Finset.sum_congr ?_ fun b _ => rfl
  ext b
  simp [mem_iff_reaches h]

theorem naming_le_count (h : gather (preorder succ n) roots = some l) : naming succ roots a ≤ l.count a := by
  classical
  rw [count_eq h, sum_succ h, naming]
  refine Nat.add_le_add_left (Finset.sum_le_sum fun b hb => ?_) _
  have hvisited := (mem_iff_reaches h).mpr (Finset.mem_filter.mp hb).2
  exact Nat.le_mul_of_pos_left _ (List.count_pos_iff.mpr hvisited)

theorem acyclicFrom_of_naming (hinner : ∀ a, succ a ≠ [] → inner a)
    (h : ∀ a, inner a → naming succ roots a ≤ 1) : ∀ root ∈ roots, AcyclicFrom (Calls succ) root := by
  classical
  intro root hroot b hpath
  -- a node on a cycle has its predecessor there, so whatever leads to it is on the cycle too
  have hpred : ∀ c, Reaches succ roots c → Relation.TransGen (Calls succ) c c →
      ∃ d, Reaches succ roots d ∧ c ∈ succ d ∧ Relation.ReflTransGen (Calls succ) c d := by
    intro c hc hcycle
    obtain ⟨d, hd, hlast⟩ := Relation.TransGen.tail'_iff.mp hcycle
    obtain ⟨r, hr, hrc⟩ := hc
    exact ⟨d, ⟨r, hr, hrc.trans hd⟩, hlast, hd⟩
  have hone : ∀ c, Relation.TransGen (Calls succ) c c → naming succ roots c ≤ 1 := by
    intro c hcycle
    obtain ⟨d, hd, -⟩ := Relation.TransGen.head'_iff.mp hcycle
    exact h c (hinner c (List.ne_nil_of_mem hd))
  induction hpath with
  | refl =>
    intro hcycle
    obtain ⟨d, hd, hmem, -⟩ := hpred root (reaches_root hroot) hcycle
    have hsum : (succ d).count root ≤ ∑ b with Reaches succ roots b, (succ b).count root :=
      Finset.single_le_sum (f := fun b => (succ b).count root) (fun _ _ => Nat.zero_le _) (by simp [hd])
    have h1 := List.count_pos_iff.mpr hroot
    have h2 := List.count_pos_iff.mpr hmem
    have h3 := hone root hcycle
    unfold naming at h3
    omega
  | @tail c e hpath hnext ih =>
    intro hcycle
    have hc : Reaches succ roots c := ⟨root, hroot, hpath⟩
    obtain ⟨d, hd, hmem, hback⟩ := hpred e (hc.tail hnext) hcycle
    by_cases heq : d = c
    · subst heq
      exact ih (Relation.TransGen.head' hnext hback)
    · have hsum : (succ c).count e + (succ d).count e ≤ ∑ b with Reaches succ roots b, (succ b).count e := by
        rw [← Finset.sum_pair (f := fun b => (succ b).count e) (Ne.symm heq)]
        refine Finset.sum_le_sum_of_subset fun x hx => ?_
        rcases Finset.mem_insert.mp hx with rfl | hx
        · simp [hc]
        · simp [Finset.mem_singleton.mp hx, hd]
      have h1 := List.count_pos_iff.mpr hnext
      have h2 := List.count_pos_iff.mpr hmem
      have h3 := hone e hcycle
      unfold naming at h3
      omega

theorem count_le_one (hinner : ∀ a, succ a ≠ [] → inner a) (h : ∀ a, inner a → naming succ roots a ≤ 1)
    (hl : gather (preorder succ n) roots = some l) : ∀ a, inner a → l.count a ≤ 1 := by
  classical
  have hacyclic := acyclicFrom_of_naming hinner h
  let r : α → α → Prop := fun b c => Reaches succ roots b ∧ c ∈ succ b
  have htrans : ∀ b c, Relation.TransGen r b c → Reaches succ roots b ∧ Relation.TransGen (Calls succ) b c := by
    intro b c hpath
    induction hpath with
    | single hr => exact ⟨hr.1, .single hr.2⟩
    | tail _ hr ih => exact ⟨ih.1, .tail ih.2 hr.2⟩
  have hirrefl : Std.Irrefl (Relation.TransGen r) := by
    refine ⟨fun b hcycle => ?_⟩
    obtain ⟨⟨root, hroot, hpath⟩, hcycle⟩ := htrans b b hcycle
    exact hacyclic root hroot b hpath hcycle
  have hwf : WellFounded (Relation.TransGen r) := Finite.wellFounded_of_trans_of_irrefl _
  intro a
  induction a using hwf.induction with
  | _ a ih =>
    intro ha
    have hle : ∑ b with Reaches succ roots b, l.count b * (succ b).count a ≤
        ∑ b with Reaches succ roots b, (succ b).count a := by
      refine Finset.sum_le_sum fun b hb => ?_
      by_cases hmem : a ∈ succ b
      · have hb := ih b (.single ⟨(Finset.mem_filter.mp hb).2, hmem⟩) (hinner b (List.ne_nil_of_mem hmem))
        exact (Nat.mul_le_mul_right _ hb).trans_eq (Nat.one_mul _)
      · simp [List.count_eq_zero_of_not_mem hmem]
    have hnaming := h a ha
    rw [count_eq hl, sum_succ hl]
    unfold naming at hnaming
    omega

theorem exists_preorder_iff (hinner : ∀ a, succ a ≠ [] → inner a) :
    (∃ n l, gather (preorder succ n) roots = some l ∧ ∀ a, inner a → l.count a ≤ 1) ↔
      ∀ a, inner a → naming succ roots a ≤ 1 := by
  constructor
  · rintro ⟨n, l, hl, hcount⟩ a ha
    exact (naming_le_count hl).trans (hcount a ha)
  · intro h
    have hends : ∃ n, ∀ root ∈ roots, (preorder succ n root).isSome := by
      have hroots : ∀ root ∈ roots, ∃ n, Unfolds succ (fun _ => True) n root := fun root hroot =>
        exists_unfolds_iff.mpr ⟨acyclicFrom_of_naming hinner h root hroot, fun _ _ => trivial⟩
      obtain ⟨n, hn⟩ := exists_common (P := Unfolds succ fun _ => True) Unfolds.mono hroots
      exact ⟨n, fun root hroot => preorder_isSome_iff.mpr (hn root hroot)⟩
    obtain ⟨n, hn⟩ := hends
    obtain ⟨l, hl⟩ := Option.isSome_iff_exists.mp (gather_isSome_iff.mpr hn)
    exact ⟨n, l, hl, count_le_one hinner h hl⟩

end SonarJavascript.Visits
