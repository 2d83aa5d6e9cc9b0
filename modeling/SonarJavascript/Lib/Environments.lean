import Mathlib.Data.List.Infix
import Mathlib.Logic.Function.Basic

/-!
# Environments of nested code

Code is nested in sites, some of which are bodies that run as activations of their own (functions). An
environment is a site entered once, with the environments around it, the innermost first. An activation is the
environment of its body and is in one place at a time, so an environment that it is in contains all that it runs
(`Control.suffix_of_open`), and no step but its own opening opens an environment (`open_of_call`,
`open_of_enter`, `open_of_leave`).
-/

namespace SonarJavascript

variable {Site : Type}

/-- The sites, each with the number of its entry. -/
abbrev Env (Site : Type) := List (Site × ℕ)

/-- The sites that the code in the environment stands in. -/
def Env.place (k : Env Site) : List Site := k.map Prod.fst

/-- The environment of the outermost sites. -/
def Env.outer (k : Env Site) (depth : ℕ) : Env Site := k.drop (k.length - depth)

section Environments

variable {k e : Env Site} {depth : ℕ}

@[simp] theorem Env.length_place : k.place.length = k.length := List.length_map _

theorem Env.outer_suffix : k.outer depth <:+ k := List.drop_suffix _ _

theorem Env.outer_of_suffix (h : e <:+ k) (hdepth : depth ≤ e.length) : k.outer depth = e.outer depth := by
  obtain ⟨inner, rfl⟩ := h
  have hlength : (inner ++ e).length - depth = inner.length + (e.length - depth) := by
    rw [List.length_append]
    omega
  rw [Env.outer, Env.outer, hlength, List.drop_append, List.drop_of_length_le (by omega), Nat.add_sub_cancel_left,
    List.nil_append]

theorem Env.place_suffix (h : e <:+ k) : e.place <:+ k.place := by
  obtain ⟨inner, rfl⟩ := h
  exact ⟨inner.map Prod.fst, (List.map_append).symm⟩

theorem Env.exists_suffix {place : List Site} (h : place <:+ k.place) : ∃ e, e <:+ k ∧ Env.place e = place := by
  obtain ⟨inner, hinner⟩ := h
  refine ⟨k.drop inner.length, List.drop_suffix _ _, ?_⟩
  rw [Env.place, List.map_drop]
  change List.drop inner.length (Env.place k) = place
  rw [← hinner, List.drop_left]

end Environments

/-- The environments entered so far, and where each activation is. -/
structure Control (Site : Type) where
  created : List (Env Site)
  current : Env Site → Env Site

variable (isBody : Site → Bool)

/-- The activation. -/
def bodyOf : Env Site → Env Site
  | [] => []
  | f :: k => if isBody f.1 then f :: k else bodyOf k

theorem bodyOf_suffix (k : Env Site) : bodyOf isBody k <:+ k := by
  induction k with
  | nil => exact List.suffix_rfl
  | cons f k ih =>
    unfold bodyOf
    split_ifs
    · exact List.suffix_rfl
    · exact ih.trans (List.suffix_cons f k)

namespace Control

section Places

variable (s : Control Site)

def Runs (k : Env Site) : Prop := k ∈ s.created ∧ s.current (bodyOf isBody k) = k

/-- The activation that entered it has not left it. -/
def Open (e : Env Site) : Prop := e <:+ s.current (bodyOf isBody e)

/-- With an environment, those around it have been entered. -/
def Closed : Prop := ∀ k ∈ s.created, ∀ e, e <:+ k → e ≠ [] → e ∈ s.created

end Places

variable {isBody} {s : Control Site} {k e : Env Site} {f : Site × ℕ}

theorem open_of_runs (hruns : s.Runs isBody k) (hsuffix : e <:+ k) (hbody : bodyOf isBody e = bodyOf isBody k) :
    s.Open isBody e := by
  rw [Open, hbody, hruns.2]
  exact hsuffix

theorem suffix_of_open (hopen : s.Open isBody e) (hruns : s.Runs isBody k)
    (hbody : bodyOf isBody e = bodyOf isBody k) : e <:+ k := by
  rwa [Open, hbody, hruns.2] at hopen

theorem closed_cons {k : Env Site} (hclosed : s.Closed) (hk : k ∈ s.created) (current : Env Site → Env Site) :
    Closed ⟨(f :: k) :: s.created, current⟩ := by
  intro k' hk' e hsuffix he
  rcases List.mem_cons.mp hk' with rfl | hk'
  · rcases List.suffix_cons_iff.mp hsuffix with rfl | hsuffix
    · exact List.mem_cons_self
    · exact List.mem_cons_of_mem _ (hclosed k hk e hsuffix he)
  · exact List.mem_cons_of_mem _ (hclosed k' hk' e hsuffix he)

theorem bodyOf_ne_of_fresh (hclosed : s.Closed) (he : e ∈ s.created) (hfresh : f :: k ∉ s.created) :
    bodyOf isBody e ≠ f :: k := by
  intro heq
  refine hfresh (hclosed e he _ ?_ (List.cons_ne_nil f k))
  rw [← heq]
  exact bodyOf_suffix isBody e

section Moves

variable [DecidableEq Site]

def call (s : Control Site) (e : Env Site) : Control Site :=
  ⟨e :: s.created, Function.update s.current e e⟩

variable (isBody) in
def enter (s : Control Site) (f : Site × ℕ) (k : Env Site) : Control Site :=
  ⟨(f :: k) :: s.created, Function.update s.current (bodyOf isBody k) (f :: k)⟩

variable (isBody) in
def leave (s : Control Site) (k : Env Site) : Control Site :=
  { s with current := Function.update s.current (bodyOf isBody k) k }

theorem open_of_call (hclosed : s.Closed) (he : e ∈ s.created) (hfresh : f :: k ∉ s.created)
    (hopen : (s.call (f :: k)).Open isBody e) : s.Open isBody e := by
  have hcurrent : e <:+ Function.update s.current (f :: k) (f :: k) (bodyOf isBody e) := hopen
  rwa [Function.update_of_ne (bodyOf_ne_of_fresh hclosed he hfresh)] at hcurrent

theorem open_of_enter (hruns : s.Runs isBody k) (he : e ∈ s.created) (hfresh : f :: k ∉ s.created)
    (hopen : (s.enter isBody f k).Open isBody e) : s.Open isBody e := by
  have hcurrent : e <:+ Function.update s.current (bodyOf isBody k) (f :: k) (bodyOf isBody e) := hopen
  by_cases hbody : bodyOf isBody e = bodyOf isBody k
  · rw [hbody, Function.update_self] at hcurrent
    rcases List.suffix_cons_iff.mp hcurrent with rfl | hsuffix
    · exact absurd he hfresh
    · exact open_of_runs hruns hsuffix hbody
  · rwa [Function.update_of_ne hbody] at hcurrent

theorem open_of_leave (hruns : s.Runs isBody (f :: k)) (hblock : isBody f.1 = false)
    (hopen : (s.leave isBody k).Open isBody e) : s.Open isBody e := by
  have hcurrent : e <:+ Function.update s.current (bodyOf isBody k) k (bodyOf isBody e) := hopen
  by_cases hbody : bodyOf isBody e = bodyOf isBody k
  · rw [hbody, Function.update_self] at hcurrent
    refine open_of_runs hruns (hcurrent.trans (List.suffix_cons f k)) ?_
    rw [hbody, bodyOf, if_neg (by simp [hblock])]
  · rwa [Function.update_of_ne hbody] at hcurrent

end Moves

end Control

end SonarJavascript
