import Mathlib.Data.List.Infix

/-!
# Histories of events

A history is a list of events, the last one first, each justified by the events before it. What a justified
event inherits from its past holds of every event (`History.forall_mem`).
-/

namespace SonarJavascript

variable {ε : Type}

/-- The head is the last event. -/
inductive History (Justified : List ε → ε → Prop) : List ε → Prop
  | nil : History Justified []
  | cons {past : List ε} {event : ε} (hevent : Justified past event) (hpast : History Justified past) :
      History Justified (event :: past)

namespace History

variable {Justified : List ε → ε → Prop} {events : List ε} {event : ε} {P : ε → Prop}

theorem justified (h : History Justified events) (hmem : event ∈ events) :
    ∃ past, event :: past <:+ events ∧ Justified past event := by
  induction h with
  | nil => simp at hmem
  | @cons past last hlast _ ih =>
    rcases List.mem_cons.mp hmem with rfl | hmem
    · exact ⟨past, List.suffix_rfl, hlast⟩
    · obtain ⟨before, hsuffix, hjustified⟩ := ih hmem
      exact ⟨before, hsuffix.trans (List.suffix_cons last past), hjustified⟩

theorem mem_of_past {past : List ε} {earlier : ε} (hsuffix : event :: past <:+ events) (hmem : earlier ∈ past) :
    earlier ∈ events :=
  hsuffix.subset (List.mem_cons_of_mem event hmem)

theorem forall_mem (h : History Justified events)
    (hstep : ∀ past event, event :: past <:+ events → (∀ earlier ∈ past, P earlier) → Justified past event → P event) :
    ∀ event ∈ events, P event := by
  induction h with
  | nil => simp
  | @cons past last hlast _ ih =>
    have hpast : ∀ earlier ∈ past, P earlier :=
      ih fun before event hsuffix => hstep before event (hsuffix.trans (List.suffix_cons last past))
    exact List.forall_mem_cons.mpr ⟨hstep past last List.suffix_rfl hpast hlast, hpast⟩

theorem map {ε' : Type} {Justified' : List ε' → ε' → Prop} (h : History Justified events) (f : ε → ε')
    (hstep : ∀ past event, event :: past <:+ events → Justified past event → Justified' (past.map f) (f event)) :
    History Justified' (events.map f) := by
  induction h with
  | nil => exact .nil
  | @cons past last hlast _ ih =>
    refine .cons (hstep past last List.suffix_rfl hlast) (ih fun before event hsuffix => ?_)
    exact hstep before event (hsuffix.trans (List.suffix_cons last past))

end History

end SonarJavascript
