import Mathlib.Data.List.Basic

/-!
# Runs of a transition system

A run is a list of steps, each with the state before it. `Run.throughout_iff` is the rule for a property
that some steps break: if under an invariant a step keeps the property exactly when it meets a condition,
then the property holds in every state of a run exactly when every step of the run meets the condition.
`Run.hide` is the rule for a system that leaves some steps out: if they keep the simulation, then each run has
its other steps in common with a run of that system.
-/

namespace SonarJavascript

variable {σ ε : Type}

/-- From the first state, through the steps, to the last state. -/
inductive Run (Step : σ → ε → σ → Prop) : σ → List (σ × ε) → σ → Prop
  | nil (s : σ) : Run Step s [] s
  | cons {s s' last : σ} {e : ε} {trace : List (σ × ε)} (hstep : Step s e s') (hrun : Run Step s' trace last) :
      Run Step s ((s, e) :: trace) last

/-- In every state of a run. -/
def Throughout (P : σ → Prop) (trace : List (σ × ε)) (last : σ) : Prop :=
  (∀ step ∈ trace, P step.1) ∧ P last

namespace Run

variable {Step : σ → ε → σ → Prop} {Inv P : σ → Prop} {Meets : σ → ε → Prop} {s last : σ} {trace : List (σ × ε)}

theorem throughout_of_forall (hrun : Run Step s trace last) (hstart : Inv s)
    (hstep : ∀ s e s', Inv s → Step s e s' → Meets s e → Inv s') (hmeets : ∀ step ∈ trace, Meets step.1 step.2) :
    Throughout Inv trace last := by
  induction hrun with
  | nil s => exact ⟨by simp, hstart⟩
  | cons h _ ih =>
    obtain ⟨hfirst, hrest⟩ := List.forall_mem_cons.mp hmeets
    obtain ⟨htrace, hlast⟩ := ih (hstep _ _ _ hstart h hfirst) hrest
    exact ⟨List.forall_mem_cons.mpr ⟨hstart, htrace⟩, hlast⟩

theorem induction_seen (hrun : Run Step s trace last) (Inv : List (σ × ε) → σ → Prop) (Meets : σ → ε → Prop)
    (seen : List (σ × ε)) (hstart : Inv seen s) (hstep : ∀ seen s e s', Inv seen s → Step s e s' → Meets s e → Inv (seen ++ [(s, e)]) s')
    (hmeets : ∀ step ∈ trace, Meets step.1 step.2) : Inv (seen ++ trace) last := by
  induction hrun generalizing seen with
  | nil s => simpa using hstart
  | @cons s s' last e trace h _ ih =>
    obtain ⟨hfirst, hrest⟩ := List.forall_mem_cons.mp hmeets
    simpa using ih _ (hstep seen s e s' hstart h hfirst) hrest

theorem append {mid : σ} {before after : List (σ × ε)} (hbefore : Run Step s before mid)
    (hafter : Run Step mid after last) : Run Step s (before ++ after) last := by
  induction hbefore with
  | nil => exact hafter
  | cons h _ ih => exact .cons h (ih hafter)

theorem append_inv {before after : List (σ × ε)} (hrun : Run Step s (before ++ after) last) :
    ∃ mid, Run Step s before mid ∧ Run Step mid after last := by
  induction before generalizing s with
  | nil => exact ⟨s, .nil s, hrun⟩
  | cons step before ih =>
    cases hrun with
    | cons h hrest =>
      obtain ⟨mid, hbefore, hafter⟩ := ih hrest
      exact ⟨mid, .cons h hbefore, hafter⟩

theorem throughout_iff (hrun : Run Step s trace last) (hstart : Inv s) (hinv : ∀ s, Inv s → P s)
    (hstep : ∀ s e s', Inv s → Step s e s' → Meets s e → Inv s')
    (hbreak : ∀ s e s', Inv s → Step s e s' → P s' → Meets s e) :
    Throughout P trace last ↔ ∀ step ∈ trace, Meets step.1 step.2 := by
  constructor
  · intro h
    induction hrun with
    | nil s => simp
    | @cons s s' last e trace hfirst hrest ih =>
      have hP : P s' := by
        cases hrest with
        | nil => exact h.2
        | cons => exact h.1 _ (List.mem_cons_of_mem _ List.mem_cons_self)
      have hmeets := hbreak _ _ _ hstart hfirst hP
      refine List.forall_mem_cons.mpr ⟨hmeets, ih (hstep _ _ _ hstart hfirst hmeets) ⟨?_, h.2⟩⟩
      exact fun step hmem => h.1 step (List.mem_cons_of_mem _ hmem)
  · intro h
    obtain ⟨htrace, hlast⟩ := hrun.throughout_of_forall hstart hstep h
    exact ⟨fun step hmem => hinv _ (htrace step hmem), hinv _ hlast⟩

section Hide

variable {τ ω : Type} {Step' : τ → ε → τ → Prop} {Sim : σ → τ → Prop} {t : τ}

theorem hide (hidden : ε → Bool) (view : σ → ω) (view' : τ → ω) (hview : ∀ s t, Sim s t → view' t = view s)
    (hhidden : ∀ s e s' t, Sim s t → Step s e s' → Meets s e → hidden e = true → Sim s' t)
    (hshown : ∀ s e s' t, Sim s t → Step s e s' → Meets s e → hidden e = false → ∃ t', Step' t e t' ∧ Sim s' t')
    (hrun : Run Step s trace last) (hsim : Sim s t) (hmeets : ∀ step ∈ trace, Meets step.1 step.2) :
    ∃ trace' last', Run Step' t trace' last' ∧ Sim last last' ∧
      trace'.map (fun step => (view' step.1, step.2)) =
        (trace.filter fun step => !hidden step.2).map fun step => (view step.1, step.2) := by
  induction hrun generalizing t with
  | nil s => exact ⟨[], t, .nil t, hsim, rfl⟩
  | @cons s s' last e trace hstep _ ih =>
    obtain ⟨hfirst, hrest⟩ := List.forall_mem_cons.mp hmeets
    cases he : hidden e with
    | true =>
      obtain ⟨trace', last', hrun', hlast, hsame⟩ := ih (hhidden s e s' t hsim hstep hfirst he) hrest
      exact ⟨trace', last', hrun', hlast, by simpa [he] using hsame⟩
    | false =>
      obtain ⟨t', hstep', hsim'⟩ := hshown s e s' t hsim hstep hfirst he
      obtain ⟨trace', last', hrun', hlast, hsame⟩ := ih hsim' hrest
      exact ⟨(t, e) :: trace', last', .cons hstep' hrun', hlast, by simp [he, hsame, hview s t hsim]⟩

end Hide

end Run

end SonarJavascript
