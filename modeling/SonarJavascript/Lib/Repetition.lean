import Mathlib.Data.List.Basic

/-!
# Repetition with bounds

The ways to repeat a step, in the order in which a backtracking engine tries them, each with the number of its turns. Once
the lower bound is reached, a turn has to leave less than there was, and a greedy repetition prefers to go on.

A reluctant repetition with a way to end starts with the least number of turns (`head?_repeated`), and being greedy only
changes the order (`mem_repeated`).
-/

namespace SonarJavascript.Repetition

universe u

section Definitions

variable {α : Type u} (step : α → List α) (remaining : α → ℕ) (isGreedy : Bool)

/-- Above the lower bound. -/
def further (max : Option ℕ) (a : α) : List (ℕ × α) :=
  let more := ((step a).filter fun b => remaining b < remaining a).attach.flatMap fun b =>
    (further (max.map Nat.pred) b.1).map fun (turns, c) => (turns + 1, c)
  if max = some 0 then [(0, a)] else if isGreedy then more ++ [(0, a)] else (0, a) :: more
termination_by remaining a
decreasing_by exact of_decide_eq_true (List.mem_filter.mp b.2).2

def repeated : ℕ → Option ℕ → α → List (ℕ × α)
  | 0, max, a => further step remaining isGreedy max a
  | min + 1, max, a =>
    if max = some 0 then [(0, a)]
    else (step a).flatMap fun b => (repeated min (max.map Nat.pred) b).map fun (turns, c) => (turns + 1, c)

end Definitions

variable {α : Type u} {step : α → List α} {remaining : α → ℕ} {isGreedy isGreedy' : Bool} {min : ℕ} {max : Option ℕ}
  {a b : α} {turns : ℕ}

theorem further_eq (max : Option ℕ) (a : α) : further step remaining isGreedy max a =
    let more := ((step a).filter fun b => remaining b < remaining a).flatMap fun b =>
      (further step remaining isGreedy (max.map Nat.pred) b).map fun (turns, c) => (turns + 1, c)
    if max = some 0 then [(0, a)] else if isGreedy then more ++ [(0, a)] else (0, a) :: more := by
  rw [further]
  simp only [List.flatMap_subtype, List.unattach_attach]

theorem mem_map_turn {ways : List (ℕ × α)} : (turns, b) ∈ ways.map (fun (turns, c) => (turns + 1, c)) ↔
    ∃ turns', turns = turns' + 1 ∧ (turns', b) ∈ ways := by
  simp only [List.mem_map, Prod.mk.injEq, Prod.exists]
  constructor
  · rintro ⟨turns', c, hmem, rfl, rfl⟩
    exact ⟨turns', rfl, hmem⟩
  · rintro ⟨turns', rfl, hmem⟩
    exact ⟨turns', b, hmem, rfl, rfl⟩

theorem mem_further_iff : (turns, b) ∈ further step remaining isGreedy max a ↔ (turns = 0 ∧ b = a) ∨
    max ≠ some 0 ∧ ∃ c ∈ step a, remaining c < remaining a ∧ ∃ turns', turns = turns' + 1 ∧
      (turns', b) ∈ further step remaining isGreedy (max.map Nat.pred) c := by
  have hmore : (turns, b) ∈ ((step a).filter fun b => remaining b < remaining a).flatMap (fun b =>
      (further step remaining isGreedy (max.map Nat.pred) b).map fun (turns, c) => (turns + 1, c)) ↔
      ∃ c ∈ step a, remaining c < remaining a ∧ ∃ turns', turns = turns' + 1 ∧
        (turns', b) ∈ further step remaining isGreedy (max.map Nat.pred) c := by
    simp only [List.mem_flatMap, List.mem_filter, decide_eq_true_eq, mem_map_turn, and_assoc]
  rw [further_eq]
  dsimp only
  split_ifs with hmax hgreedy
  · simp [hmax]
  · rw [List.mem_append, hmore, List.mem_singleton, Prod.mk.injEq, or_comm, and_iff_right hmax]
  · rw [List.mem_cons, hmore, Prod.mk.injEq, and_iff_right hmax]

/-- By induction on what remains: being greedy only changes the order. -/
theorem mem_further (isGreedy isGreedy' : Bool) : (turns, b) ∈ further step remaining isGreedy max a ↔
    (turns, b) ∈ further step remaining isGreedy' max a := by
  induction hremaining : remaining a using Nat.strongRecOn generalizing a max turns with
  | _ n ih =>
    subst hremaining
    rw [mem_further_iff, mem_further_iff]
    refine or_congr_right (and_congr_right fun _ => exists_congr fun c => and_congr_right fun _ =>
      and_congr_right fun hless => exists_congr fun turns' => and_congr_right fun _ => ih _ hless rfl)

theorem mem_repeated (isGreedy isGreedy' : Bool) : (turns, b) ∈ repeated step remaining isGreedy min max a ↔
    (turns, b) ∈ repeated step remaining isGreedy' min max a := by
  induction min generalizing a max turns with
  | zero => exact mem_further isGreedy isGreedy'
  | succ min ih =>
    rw [repeated, repeated]
    split_ifs
    · rfl
    · simp only [List.mem_flatMap, mem_map_turn]
      exact exists_congr fun c => and_congr_right fun _ => exists_congr fun turns' => and_congr_right fun _ => ih

theorem further_nil (max : Option ℕ) (h : step a = []) : further step remaining isGreedy max a = [(0, a)] := by
  rw [further_eq, h]
  dsimp only
  rw [List.filter_nil, List.flatMap_nil, List.nil_append, ite_self, ite_self]

/-- Where there is only one way to go on. -/
theorem map_further_singleton (h : step a = [b]) (hless : remaining b < remaining a) :
    (further step remaining isGreedy none a).map Prod.snd =
      if isGreedy then (further step remaining isGreedy none b).map Prod.snd ++ [a]
      else a :: (further step remaining isGreedy none b).map Prod.snd := by
  have hturn : ∀ ways : List (ℕ × α), (ways.map fun (turns, c) => (turns + 1, c)).map Prod.snd = ways.map Prod.snd :=
    fun ways => List.map_map
  have hfilter : [b].filter (fun b => remaining b < remaining a) = [b] := List.filter_cons_of_pos (decide_eq_true hless)
  rw [further_eq, h, hfilter, List.flatMap_singleton]
  dsimp only
  rw [if_neg nofun, Option.map_none]
  split_ifs
  · rw [List.map_append, hturn]
    rfl
  · rw [List.map_cons, hturn]

theorem further_ne_nil (max : Option ℕ) (a : α) : further step remaining isGreedy max a ≠ [] := by
  have hmem : (0, a) ∈ further step remaining isGreedy max a := mem_further_iff.mpr (Or.inl ⟨rfl, rfl⟩)
  exact List.ne_nil_of_mem hmem

theorem head?_further (max : Option ℕ) (a : α) : (further step remaining false max a).head? = some (0, a) := by
  rw [further_eq]
  dsimp only
  rw [if_neg Bool.false_ne_true]
  split_ifs
  · rfl
  · rfl

theorem head?_repeated (hbounds : ∀ m ∈ max, min ≤ m)
    (h : (repeated step remaining false min max a).head? = some (turns, b)) : turns = min := by
  induction min generalizing a max turns with
  | zero =>
    rw [repeated, head?_further] at h
    exact (Prod.mk.inj (Option.some_inj.mp h)).1.symm
  | succ min ih =>
    have hmax : max ≠ some 0 := by
      rintro rfl
      exact absurd (hbounds 0 rfl) (Nat.not_succ_le_zero min)
    rw [repeated, if_neg hmax, List.head?_flatMap] at h
    obtain ⟨c, -, hhead⟩ := List.exists_of_findSome?_eq_some h
    rw [List.head?_map] at hhead
    obtain ⟨⟨turns', c'⟩, hfirst, heq⟩ := Option.map_eq_some_iff.mp hhead
    obtain ⟨rfl, rfl⟩ := Prod.mk.inj heq
    have hpred : ∀ m ∈ max.map Nat.pred, min ≤ m := by
      intro m hm
      obtain ⟨m', hm', rfl⟩ := Option.map_eq_some_iff.mp hm
      exact Nat.le_pred_of_lt (hbounds m' hm')
    rw [ih hpred hfirst]

theorem rel_of_mem_further {r : α → α → Prop} (hrefl : ∀ a, r a a) (htrans : ∀ a b c, r a b → r b c → r a c)
    (hstep : ∀ a, ∀ b ∈ step a, r a b) (h : (turns, b) ∈ further step remaining isGreedy max a) : r a b := by
  induction turns generalizing a max with
  | zero =>
    rcases mem_further_iff.mp h with ⟨-, rfl⟩ | ⟨-, c, -, -, turns', heq, -⟩
    · exact hrefl b
    · exact nomatch heq
  | succ turns ih =>
    rcases mem_further_iff.mp h with ⟨heq, -⟩ | ⟨-, c, hc, -, turns', heq, hmem⟩
    · exact nomatch heq
    · obtain rfl := Nat.succ.inj heq
      exact htrans a c b (hstep a c hc) (ih hmem)

theorem rel_of_mem_repeated {r : α → α → Prop} (hrefl : ∀ a, r a a) (htrans : ∀ a b c, r a b → r b c → r a c)
    (hstep : ∀ a, ∀ b ∈ step a, r a b) (h : (turns, b) ∈ repeated step remaining isGreedy min max a) : r a b := by
  induction min generalizing a max turns with
  | zero => exact rel_of_mem_further hrefl htrans hstep h
  | succ min ih =>
    rw [repeated] at h
    split_ifs at h
    · obtain ⟨rfl, rfl⟩ := Prod.mk.inj (List.mem_singleton.mp h)
      exact hrefl b
    · obtain ⟨c, hc, hmem⟩ := List.mem_flatMap.mp h
      obtain ⟨turns', rfl, hinner⟩ := mem_map_turn.mp hmem
      exact htrans a c b (hstep a c hc) (ih hinner)

end SonarJavascript.Repetition
