import Mathlib.Algebra.BigOperators.Group.List.Basic
import Mathlib.Computability.Language
import SonarJavascript.Regex.Grammar

/-!
# Meanings of patterns

A pattern has a meaning that is put together from the meanings of its parts, in any monoid where `{n}` behind a
character stands for `n` times this character: `meaning_run`.
-/

namespace SonarJavascript.Regex

open Node

/-- Matchers that are run after each other are multiplied. What an opening such as `(?<=` or `(?i:` changes for the
characters of its group is a `Mode`. -/
structure Semantics where
  Meaning : Type
  [monoid : Monoid Meaning]
  Mode : Type
  initial : Mode
  enter : JsString → Mode → Mode
  /-- In a lookbehind, the last element is matched first. -/
  backward : Mode → Bool
  leaf : Mode → Node → Meaning
  character : Mode → ℕ → Meaning
  disjunction : List Meaning → Meaning
  capture : Mode → ℕ → Meaning → Meaning
  look : JsString → Meaning → Meaning
  quantify : ℕ → Option ℕ → Bool → Meaning → Meaning
  quantify_character : ∀ n mode value, quantify n (some n) true (character mode value) = character mode value ^ n

namespace Semantics

attribute [instance] Semantics.monoid

variable (S : Semantics)

def sequence (mode : S.Mode) (meanings : List S.Meaning) : S.Meaning :=
  if S.backward mode then meanings.reverse.prod else meanings.prod

mutual

def meaning (mode : S.Mode) : Node → S.Meaning
  | .Pattern alternatives => S.disjunction (meanings mode alternatives)
  | .Alternative elements => S.sequence mode (meanings mode elements)
  | .Group opening alternatives => S.disjunction (meanings (S.enter opening mode) alternatives)
  | .CapturingGroup _ number alternatives => S.capture mode number (S.disjunction (meanings mode alternatives))
  | .Lookaround opening alternatives =>
    S.look opening (S.disjunction (meanings (S.enter opening mode) alternatives))
  | .Quantifier element min max greedy _ => S.quantify min max greedy (meaning mode element)
  | .Character _ value => S.character mode value
  | node => S.leaf mode node

def meanings (mode : S.Mode) : List Node → List S.Meaning
  | [] => []
  | node :: nodes => meaning mode node :: meanings mode nodes

end

/-- The meaning of a whole pattern. -/
def denotation (pattern : Node) : S.Meaning := S.meaning S.initial pattern

variable {S} {mode : S.Mode}

theorem meanings_eq_map (nodes : List Node) : S.meanings mode nodes = nodes.map (S.meaning mode) := by
  induction nodes with
  | nil => rfl
  | cons node nodes ih => rw [meanings, ih, List.map_cons]

theorem meaning_build {node node' : Node} (h : ∀ mode, S.meaning mode node = S.meaning mode node') (frame : Frame)
    (before after : List Node) :
    S.meaning mode (frame.build (before ++ node :: after)) = S.meaning mode (frame.build (before ++ node' :: after)) := by
  cases frame <;> simp [Frame.build, meaning, meanings_eq_map, h]

theorem meaning_fill {node node' : Node} (h : ∀ mode, S.meaning mode node = S.meaning mode node') (C : Context) :
    S.meaning mode (C.fill node) = S.meaning mode (C.fill node') := by
  induction C generalizing mode with
  | hole => exact h mode
  | parts frame before after inner ih => exact meaning_build (fun _ => ih) frame before after
  | quantifier inner min max greedy text ih => rw [Context.fill, Context.fill, meaning, meaning, ih]

theorem sequence_congr {middle middle' : List S.Meaning} (before after : List S.Meaning)
    (h : S.sequence mode middle = S.sequence mode middle') :
    S.sequence mode (before ++ (middle ++ after)) = S.sequence mode (before ++ (middle' ++ after)) := by
  unfold sequence at h ⊢
  split_ifs at h ⊢ <;> simp only [List.reverse_append, List.prod_append, h]

theorem sequence_replicate (n : ℕ) (m : S.Meaning) : S.sequence mode (List.replicate n m) = m ^ n := by
  unfold sequence
  split <;> simp

/-- A quantified space means a run of spaces. -/
theorem meaning_run (escape : JsString) (n : ℕ) (before after : List Node) :
    S.meaning mode (.Alternative (before ++ .Character (escape ++ [32]) 32 ::
      (List.replicate n (.Character [32] 32) ++ after))) =
    S.meaning mode (.Alternative (before ++ .Quantifier (.Character (escape ++ [32]) 32) (n + 1) (some (n + 1)) true
      (braces (n + 1)) :: after)) := by
  have hrun : S.sequence mode (List.replicate (n + 1) (S.character mode 32)) =
      S.sequence mode [S.character mode 32 ^ (n + 1)] := by
    rw [sequence_replicate, ← List.replicate_one, sequence_replicate, pow_one]
  have hcongr := sequence_congr (before.map (S.meaning mode)) (after.map (S.meaning mode)) hrun
  rw [List.replicate_succ] at hcongr
  simpa [meaning, meanings_eq_map, S.quantify_character] using hcongr

/-- The words that a pattern consumes. `words` are those of sets, classes and references. -/
def languages (words : Node → Language ℕ) : Semantics where
  Meaning := Language ℕ
  Mode := Unit
  initial := ()
  enter _ mode := mode
  backward _ := false
  leaf _ node := words node
  character _ value := {[value]}
  disjunction alternatives := alternatives.sum
  capture _ _ alternatives := alternatives
  look _ _ := 1
  quantify min max _ element := {word | ∃ n, (min ≤ n ∧ ∀ m ∈ max, n ≤ m) ∧ word ∈ element ^ n}
  quantify_character n _ value := by
    ext word
    constructor
    · rintro ⟨m, ⟨hmin, hmax⟩, hword⟩
      obtain rfl : m = n := Nat.le_antisymm (hmax n rfl) hmin
      exact hword
    · intro hword
      refine ⟨n, ⟨Nat.le_refl n, fun m hm => ?_⟩, hword⟩
      cases hm
      exact Nat.le_refl n

/-- Two spaces. -/
example (words : Node → Language ℕ) :
    (languages words).meaning () (.Alternative [.Character [32] 32, .Character [32] 32]) =
      (languages words).meaning () (.Alternative [.Quantifier (.Character [32] 32) 2 (some 2) true (braces 2)]) :=
  meaning_run [] 1 [] []

end Semantics

/-- The spaces that end with a node of an alternative are written with a quantifier. -/
theorem exists_quantified {G : Grammar} {C : Context} {first later : List Node} {left : JsString} {m : ℕ}
    (h : IsParse G (C.fill (.Alternative (first ++ .Character [32] 32 :: later))) []) (hleft : left.getLast? ≠ some 32)
    (htext : C.left ++ rawJoined [] first = left ++ spaces (m + 1)) :
    ∃ pattern, IsParse G pattern [] ∧
      pattern.raw = left ++ 32 :: braces (m + 2) ++ (rawJoined [] later ++ C.right) ∧
      ∀ S : Semantics, S.denotation pattern =
        S.denotation (C.fill (.Alternative (first ++ .Character [32] 32 :: later))) := by
  have hcount : trailingSpaces (C.left ++ rawJoined [] first) = m + 1 := by rw [htext, trailingSpaces_spaces hleft]
  have hparts := isParse_of_fill C [] h
  simp only [IsParse] at hparts
  obtain ⟨init, escape, hfirst⟩ := exists_run hparts (left_ends C [] h) (hcount ▸ Nat.succ_pos m)
  rw [hcount, Nat.add_sub_cancel] at hfirst
  have helements : first ++ .Character [32] 32 :: later =
      init ++ .Character (escape ++ [32]) 32 :: (List.replicate (m + 1) (.Character [32] 32) ++ later) := by
    rw [hfirst, List.replicate_succ']
    simp
  rw [helements] at h hparts ⊢
  refine ⟨C.fill (.Alternative (init ++ .Quantifier (.Character (escape ++ [32]) 32) (m + 2) (some (m + 2)) true
    (braces (m + 2)) :: later)), ?_, ?_, fun S => ?_⟩
  · refine isParse_fill (Nat.le_add_left 2 m) (rawJoined_run escape (m + 1) init later)
      (rawJoined_quantified escape (m + 2) init later) C [] (fun helements => ?_) h
    simp only [IsParse] at helements ⊢
    have hrun := rawJoined_run escape (m + 1) [] later
    have hquantified := rawJoined_quantified escape (m + 2) [] later
    rw [List.nil_append, rawJoined, List.nil_append] at hrun hquantified
    have happend : ∀ text : JsString, text ++ rawJoined [] later ++ (C.right ++ []) =
        text ++ (rawJoined [] later ++ (C.right ++ [])) := fun text => List.append_assoc _ _ _
    exact partsIsParse_replace _ _ (Nat.le_add_left 2 m) (List.cons_ne_nil _ _) (List.cons_ne_nil _ _)
      ((congrArg (· ++ (C.right ++ [])) hrun).trans (happend _))
      ((congrArg (· ++ (C.right ++ [])) hquantified).trans (happend _)) parts_quantified init helements
  · have hrun := rawJoined_run escape m init []
    rw [List.append_nil, rawJoined, List.append_nil, ← hfirst] at hrun
    have hescape : C.left ++ rawJoined [] init ++ escape = left := by
      rw [hrun, ← List.append_assoc] at htext
      simpa using List.append_cancel_right htext
    rw [Context.raw_fill, raw, rawJoined_quantified, ← hescape]
    simp
  · exact Semantics.meaning_fill (fun mode => (Semantics.meaning_run escape (m + 1) init later).symm) C

end SonarJavascript.Regex
