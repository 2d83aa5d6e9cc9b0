import Mathlib.Data.List.Infix

/-!
# Replacing the first occurrence of a pattern

`replaceFirst` replaces the first occurrence of a pattern, and leaves a text without one as it is.

The patterns here are words in brackets that hold no bracket. Two such words of a text are the same one or
they are apart (`Bracketed.append_eq_append_iff`), so it can be said when a replacement changes one given
occurrence into one given word (`replaceFirst_eq_iff`).
-/

namespace SonarJavascript

variable {α : Type}

/-! ### Words in brackets -/

/-- `left`, then neither `left` nor `right`, then `right`. -/
structure Bracketed (left right : α) (word : List α) : Prop where
  ne : left ≠ right
  exists_body : ∃ body, word = left :: body ++ [right] ∧ left ∉ body ∧ right ∉ body

namespace Bracketed

variable {left right : α} {u v before after rest : List α}

theorem append_inj (hu : Bracketed left right u) (hv : Bracketed left right v)
    (h : u ++ after = v ++ rest) : u = v ∧ after = rest := by
  obtain ⟨body, rfl, -, hbody⟩ := hu.exists_body
  obtain ⟨body', rfl, -, hbody'⟩ := hv.exists_body
  have htail : body ++ right :: after = body' ++ right :: rest := by simpa using h
  obtain ⟨l, rfl, hl⟩ | ⟨l, rfl, hl⟩ := List.append_eq_append_iff.mp htail
  · cases l with
    | nil => exact ⟨by simp, by simpa using hl⟩
    | cons b l => exact absurd (by simp [(List.cons.inj hl).1]) hbody'
  · cases l with
    | nil => exact ⟨by simp, by simpa using hl.symm⟩
    | cons b l => exact absurd (by simp [(List.cons.inj hl).1]) hbody

/-- A word that starts after the left bracket of another one starts after the whole of it. -/
theorem exists_eq_append {mid : List α} (hu : Bracketed left right u) (hv : Bracketed left right v)
    (h : mid ++ u ++ after = v ++ rest) (hmid : mid ≠ []) : ∃ between, mid = v ++ between := by
  obtain ⟨body, rfl, -, -⟩ := hu.exists_body
  obtain ⟨body', rfl, hleft, -⟩ := hv.exists_body
  obtain ⟨a, mid, rfl⟩ := List.exists_cons_of_ne_nil hmid
  obtain ⟨-, htext⟩ : a = left ∧ mid ++ left :: (body ++ right :: after) = body' ++ right :: rest := by
    simpa using h
  obtain rfl : a = left := by simpa using congrArg List.head? h
  obtain ⟨l, rfl, htail⟩ | ⟨l, rfl, htail⟩ := List.append_eq_append_iff.mp htext
  · -- the left bracket would be in the body or be the right one
    cases l with
    | nil => exact absurd (List.cons.inj htail).1 hu.ne
    | cons b l =>
      obtain rfl : a = b := (List.cons.inj htail).1
      simp at hleft
  · cases l with
    | nil => exact absurd (List.cons.inj htail).1.symm hu.ne
    | cons b l =>
      obtain rfl : right = b := (List.cons.inj htail).1
      exact ⟨l, by simp⟩

/-- Two words of a text are the same one or apart. -/
theorem append_eq_append_iff (hu : Bracketed left right u) (hv : Bracketed left right v) {pre : List α} :
    before ++ u ++ after = pre ++ v ++ rest ↔
      (before = pre ∧ u = v ∧ after = rest) ∨
      (∃ between, pre = before ++ u ++ between ∧ after = between ++ v ++ rest) ∨
      ∃ between, before = pre ++ v ++ between ∧ rest = between ++ u ++ after := by
  constructor
  · intro h
    rw [List.append_assoc, List.append_assoc] at h
    obtain ⟨mid, rfl, htail⟩ | ⟨mid, rfl, htail⟩ := List.append_eq_append_iff.mp h
    · by_cases hmid : mid = []
      · subst hmid
        obtain ⟨rfl, rfl⟩ := hu.append_inj hv htail
        exact .inl ⟨by simp, rfl, rfl⟩
      · rw [← List.append_assoc] at htail
        obtain ⟨between, rfl⟩ := hv.exists_eq_append hu htail.symm hmid
        refine .inr (.inl ⟨between, by simp, ?_⟩)
        simpa using htail
    · by_cases hmid : mid = []
      · subst hmid
        obtain ⟨rfl, rfl⟩ := hv.append_inj hu htail
        exact .inl ⟨by simp, rfl, rfl⟩
      · rw [← List.append_assoc] at htail
        obtain ⟨between, rfl⟩ := hu.exists_eq_append hv htail.symm hmid
        refine .inr (.inr ⟨between, by simp, ?_⟩)
        simpa using htail
  · rintro (⟨rfl, rfl, rfl⟩ | ⟨between, rfl, rfl⟩ | ⟨between, rfl, rfl⟩) <;> simp

end Bracketed

/-! ### The first occurrence -/

variable [DecidableEq α]

/-- The text before and after the first occurrence. -/
def splitFirst (pattern : List α) : List α → Option (List α × List α)
  | [] => if pattern = [] then some ([], []) else none
  | a :: text =>
    if pattern.isPrefixOf (a :: text) then some ([], (a :: text).drop pattern.length)
    else (splitFirst pattern text).map fun (before, after) => (a :: before, after)

def replaceFirst (pattern replacement text : List α) : List α :=
  match splitFirst pattern text with
  | none => text
  | some (before, after) => before ++ replacement ++ after

variable {pattern replacement text before after : List α}

theorem splitFirst_eq_some (h : splitFirst pattern text = some (before, after)) :
    text = before ++ pattern ++ after := by
  induction text generalizing before with
  | nil =>
    obtain ⟨rfl, rfl, rfl⟩ : pattern = [] ∧ [] = before ∧ [] = after := by simpa [splitFirst] using h
    rfl
  | cons a text ih =>
    rw [splitFirst] at h
    split_ifs at h with hpre
    · obtain ⟨rfl, rfl⟩ : [] = before ∧ (a :: text).drop pattern.length = after := by simpa using h
      exact (List.prefix_iff_eq_append.mp (List.isPrefixOf_iff_prefix.mp hpre)).symm
    · obtain ⟨⟨before, after⟩, hsplit, heq⟩ := Option.map_eq_some_iff.mp h
      obtain ⟨rfl, rfl⟩ := Prod.mk.inj heq
      rw [ih hsplit]
      rfl

theorem exists_splitFirst (h : text = before ++ pattern ++ after) :
    ∃ first rest, splitFirst pattern text = some (first, rest) ∧ first.length ≤ before.length := by
  induction text generalizing before with
  | nil =>
    obtain ⟨rfl, rfl, rfl⟩ : before = [] ∧ pattern = [] ∧ after = [] := by simpa using h.symm
    exact ⟨[], [], by simp [splitFirst], le_rfl⟩
  | cons a text ih =>
    rw [splitFirst]
    split_ifs with hpre
    · exact ⟨[], _, rfl, Nat.zero_le _⟩
    · cases before with
      | nil =>
        refine absurd (List.isPrefixOf_iff_prefix.mpr ?_) hpre
        exact ⟨after, h.symm⟩
      | cons b before =>
        obtain ⟨-, htext⟩ := List.cons.inj h
        obtain ⟨first, rest, hsplit, hle⟩ := ih htext
        exact ⟨a :: first, rest, by rw [hsplit]; rfl, Nat.succ_le_succ hle⟩

/-- A replacement turns one occurrence of `old` into `new` if and only if `old` is what it replaces, by
`new`, and that occurrence is the first one. -/
theorem replaceFirst_eq_iff {left right : α} {old new : List α} (hpattern : Bracketed left right pattern)
    (hreplacement : Bracketed left right replacement) (hold : Bracketed left right old)
    (hnew : Bracketed left right new) (hne : old ≠ new) :
    replaceFirst pattern replacement (before ++ old ++ after) = before ++ new ++ after ↔
      pattern = old ∧ replacement = new ∧
        ∀ pre post, before ++ old ++ after = pre ++ old ++ post → before.length ≤ pre.length := by
  unfold replaceFirst
  constructor
  · intro h
    cases hsplit : splitFirst pattern (before ++ old ++ after) with
    | none =>
      rw [hsplit] at h
      exact absurd (by simpa using h) hne
    | some split =>
      obtain ⟨first, rest⟩ := split
      rw [hsplit] at h
      obtain ⟨rfl, rfl, rfl⟩ | ⟨between, rfl, rfl⟩ | ⟨between, rfl, rfl⟩ :=
        (hold.append_eq_append_iff hpattern).mp (splitFirst_eq_some hsplit)
      · refine ⟨rfl, by simpa using h, fun pre post heq => ?_⟩
        obtain ⟨first, rest, hsplit', hle⟩ := exists_splitFirst heq
        rw [hsplit] at hsplit'
        obtain ⟨rfl, rfl⟩ := Prod.mk.inj (Option.some.inj hsplit')
        exact hle
      · have htail : old ++ (between ++ replacement ++ rest) = new ++ (between ++ pattern ++ rest) := by
          simpa using h
        exact absurd (hold.append_inj hnew htail).1 hne
      · -- an earlier word was replaced, so the given one is still there
        have htail : replacement ++ (between ++ old ++ after) = pattern ++ (between ++ new ++ after) := by
          simpa using h
        obtain ⟨-, hrest⟩ := hreplacement.append_inj hpattern htail
        exact absurd (by simpa using hrest) hne
  · rintro ⟨rfl, rfl, hfirst⟩
    obtain ⟨first, rest, hsplit, hle⟩ := exists_splitFirst (rfl : before ++ pattern ++ after = _)
    have heq := splitFirst_eq_some hsplit
    have hlen := Nat.le_antisymm hle (hfirst first rest heq)
    obtain ⟨hpre, rfl⟩ := List.append_inj heq (by simp [hlen])
    obtain ⟨rfl, -⟩ := List.append_inj hpre hlen.symm
    rw [hsplit]

end SonarJavascript
