import Mathlib.Data.Fintype.Card
import Mathlib.Logic.Relation

/-!
# Recursion along successors

A function that calls itself for the successors of its argument, where these need not be smaller. Among
finitely many arguments, it ends if and only if it does not come back to an argument (`exists_unfolds_iff`).
-/

namespace SonarJavascript.Unfolding

universe u

variable {α : Type u} {succ : α → List α} {fine : α → Prop}

/-- The calls from `a` are at most `n` deep, and all of them are fine. -/
def Unfolds (succ : α → List α) (fine : α → Prop) : ℕ → α → Prop
  | 0, _ => False
  | n + 1, a => fine a ∧ ∀ b ∈ succ a, Unfolds succ fine n b

/-- The second argument is a successor of the first. -/
def Calls (succ : α → List α) (a b : α) : Prop :=
  b ∈ succ a

/-- No way from `a` comes back to where it has been. -/
def AcyclicFrom (r : α → α → Prop) (a : α) : Prop :=
  ∀ b, Relation.ReflTransGen r a b → ¬ Relation.TransGen r b b

theorem Unfolds.mono {n m : ℕ} {a : α} (h : Unfolds succ fine n a) (hle : n ≤ m) : Unfolds succ fine m a := by
  induction n generalizing a m with
  | zero => cases h
  | succ n ih =>
    obtain ⟨m, rfl⟩ : ∃ k, m = k + 1 := ⟨m - 1, by omega⟩
    exact ⟨h.1, fun b hb => ih (h.2 b hb) (by omega)⟩

theorem Unfolds.self {n : ℕ} {a : α} (h : Unfolds succ fine n a) : fine a := by
  cases n with
  | zero => cases h
  | succ n => exact h.1

theorem Unfolds.of_transGen {n : ℕ} {a b : α} (h : Unfolds succ fine n a) (hpath : Relation.TransGen (Calls succ) a b) :
    ∃ m < n, Unfolds succ fine m b := by
  have hstep : ∀ {n a b}, Unfolds succ fine n a → b ∈ succ a → ∃ m < n, Unfolds succ fine m b := by
    intro n a b h hb
    cases n with
    | zero => cases h
    | succ n => exact ⟨n, Nat.lt_succ_self n, h.2 b hb⟩
  induction hpath with
  | single hb => exact hstep h hb
  | tail _ hb ih =>
    obtain ⟨m, hm, hmid⟩ := ih
    obtain ⟨k, hk, hlast⟩ := hstep hmid hb
    exact ⟨k, hk.trans hm, hlast⟩

theorem Unfolds.not_cycle {n : ℕ} {a : α} (h : Unfolds succ fine n a) : ¬ Relation.TransGen (Calls succ) a a := by
  intro hcycle
  induction n using Nat.strong_induction_on with
  | _ n ih =>
    obtain ⟨m, hm, hagain⟩ := h.of_transGen hcycle
    exact ih m hm hagain

/-- What holds of each argument of a list from a bound on holds of all from a common bound on. -/
theorem exists_common {P : ℕ → α → Prop} (hmono : ∀ {n m a}, P n a → n ≤ m → P m a) {l : List α}
    (h : ∀ b ∈ l, ∃ n, P n b) : ∃ n, ∀ b ∈ l, P n b := by
  induction l with
  | nil => exact ⟨0, nofun⟩
  | cons b l ih =>
    obtain ⟨n, hn⟩ := h b List.mem_cons_self
    obtain ⟨m, hm⟩ := ih fun c hc => h c (List.mem_cons_of_mem _ hc)
    refine ⟨max n m, fun c hc => ?_⟩
    rcases List.mem_cons.mp hc with rfl | hc
    · exact hmono hn (le_max_left n m)
    · exact hmono (hm c hc) (le_max_right n m)

theorem unfolds_succ {a : α} (hfine : fine a) (h : ∀ b ∈ succ a, ∃ n, Unfolds succ fine n b) :
    ∃ n, Unfolds succ fine n a := by
  obtain ⟨n, hn⟩ := exists_common (P := Unfolds succ fine) Unfolds.mono h
  exact ⟨n + 1, hfine, hn⟩

theorem AcyclicFrom.of_reflTransGen {r : α → α → Prop} {a b : α} (h : AcyclicFrom r a)
    (hpath : Relation.ReflTransGen r a b) : AcyclicFrom r b :=
  fun c hc => h c (hpath.trans hc)

theorem acyclicFrom_of_lt {r : α → α → Prop} (measure : α → ℕ) (h : ∀ b c, r b c → measure c < measure b) (a : α) :
    AcyclicFrom r a := by
  intro b _ hcycle
  have hlt : ∀ c d, Relation.TransGen r c d → measure d < measure c := by
    intro c d hpath
    induction hpath with
    | single hr => exact h _ _ hr
    | tail _ hr ih => exact (h _ _ hr).trans ih
  exact lt_irrefl _ (hlt b b hcycle)

theorem AcyclicFrom.acc [Finite α] {r : α → α → Prop} {a : α} (h : AcyclicFrom r a) : Acc (fun c b => r b c) a := by
  -- a pair on a way from `a`; no cycle goes through one
  let s : α → α → Prop := fun c b => Relation.ReflTransGen r a b ∧ r b c
  have htrans : ∀ c b, Relation.TransGen s c b → Relation.ReflTransGen r a b ∧ Relation.TransGen r b c := by
    intro c b hpath
    induction hpath with
    | single hs => exact ⟨hs.1, .single hs.2⟩
    | tail _ hs ih => exact ⟨hs.1, .head hs.2 ih.2⟩
  have hirrefl : Std.Irrefl (Relation.TransGen s) := ⟨fun b hcycle => h b (htrans b b hcycle).1 (htrans b b hcycle).2⟩
  have hwf : WellFounded (Relation.TransGen s) := Finite.wellFounded_of_trans_of_irrefl _
  have hall : ∀ b, Relation.ReflTransGen r a b → Acc (fun c b => r b c) b := by
    intro b
    induction b using hwf.induction with
    | _ b ih =>
      intro hpath
      exact .intro b fun c hc => ih c (.single ⟨hpath, hc⟩) (hpath.tail hc)
  exact hall a .refl

theorem exists_unfolds_iff [Finite α] {a : α} : (∃ n, Unfolds succ fine n a) ↔
    AcyclicFrom (Calls succ) a ∧ ∀ b, Relation.ReflTransGen (Calls succ) a b → fine b := by
  constructor
  · rintro ⟨n, h⟩
    have hreached : ∀ b, Relation.ReflTransGen (Calls succ) a b → ∃ m, Unfolds succ fine m b := by
      intro b hpath
      rcases Relation.reflTransGen_iff_eq_or_transGen.mp hpath with rfl | hpath
      · exact ⟨n, h⟩
      · obtain ⟨m, -, hb⟩ := h.of_transGen hpath
        exact ⟨m, hb⟩
    exact ⟨fun b hpath => (hreached b hpath).choose_spec.not_cycle,
      fun b hpath => (hreached b hpath).choose_spec.self⟩
  · rintro ⟨hacyclic, hfine⟩
    have hall : ∀ b, Relation.ReflTransGen (Calls succ) a b → ∃ n, Unfolds succ fine n b := by
      intro b hpath
      induction hacyclic.of_reflTransGen hpath |>.acc with
      | intro b _ ih => exact unfolds_succ (hfine b hpath) fun c hc => ih c hc (hpath.tail hc)
    exact hall a .refl

theorem exists_unfolds_toList_iff [Finite α] {next : α → Option α} {a : α} :
    (∃ n, Unfolds (fun b => (next b).toList) (fun _ => True) n a) ↔ AcyclicFrom (fun b c => next b = some c) a := by
  have hcalls : Calls (fun b => (next b).toList) = fun b c => next b = some c := by
    funext b c
    rw [Calls, Option.mem_toList]
  rw [exists_unfolds_iff, hcalls, and_iff_left fun _ _ => trivial]

end SonarJavascript.Unfolding
