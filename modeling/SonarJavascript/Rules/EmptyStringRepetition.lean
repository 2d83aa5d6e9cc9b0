import Mathlib.Computability.Language
import SonarJavascript.Regex.Ast

/-!
# Repetitions of what matches the empty string (S5842)

`matchEmptyString` takes a quantifier for one that matches the empty string exactly if its minimum is 0, so that
`(?:a*)+` is missed: `matchEmptyString_iff`.
-/

namespace SonarJavascript.Rules.EmptyStringRepetition

open Regex
open Regex.Node (Visit visits visitsJoined)

mutual

def matchEmptyString : Node → Bool
  | .Alternative elements => everyMatch elements
  | .Lookaround _ _ | .Edge _ => true
  | .CapturingGroup _ _ alternatives | .Group _ alternatives | .Pattern alternatives => someMatch alternatives
  | .Quantifier _ min _ _ _ => min = 0
  | _ => false

def everyMatch : List Node → Bool
  | [] => true
  | node :: nodes => matchEmptyString node && everyMatch nodes

def someMatch : List Node → Bool
  | [] => false
  | node :: nodes => matchEmptyString node || someMatch nodes

end

/-- The quantifiers that are visited, with their elements. -/
def quantified (pattern : Node) : List (Node × Node) :=
  (pattern.visits "" 0).filterMap fun visit =>
    match visit.node with
    | node@(.Quantifier element _ _ _ _) => some (node, element)
    | _ => none

/-- `onQuantifierEnter` of all quantifiers. -/
def reported (pattern : Node) : List (Node × Node) :=
  (quantified pattern).filter fun entry => matchEmptyString entry.2

/-! ### Languages -/

/-- At least `min` and at most `max` words after each other. -/
def between (min : ℕ) (max : Option ℕ) (l : Language ℕ) : Language ℕ :=
  {word | ∃ n, (min ≤ n ∧ ∀ m ∈ max, n ≤ m) ∧ word ∈ l ^ n}

section Language

variable (leaf : Node → Language ℕ)

mutual

/-- The words of a node. `leaf` has those of sets and classes, which with the flag `v` are texts of any length, and
stands for what assertions and backreferences do. -/
def language : Node → Language ℕ
  | .Alternative elements => concatenation elements
  | .CapturingGroup _ _ alternatives | .Group _ alternatives | .Pattern alternatives => union alternatives
  | .Quantifier element min max _ _ => between min max (language element)
  | .Character _ value => {[value]}
  | node => leaf node

def concatenation : List Node → Language ℕ
  | [] => 1
  | node :: nodes => language node * concatenation nodes

def union : List Node → Language ℕ
  | [] => 0
  | node :: nodes => language node + union nodes

end

end Language

mutual

/-- No assertions and no backreferences, and the bounds of quantifiers in order. -/
def Plain : Node → Prop
  | .Alternative elements => AllPlain elements
  | .CapturingGroup _ _ alternatives | .Group _ alternatives | .Pattern alternatives => AllPlain alternatives
  | .Quantifier element min max _ _ => Plain element ∧ ∀ m ∈ max, min ≤ m
  | .Lookaround _ _ | .Edge _ | .Backreference _ => False
  | .CharacterClass _ elements | .ClassOperation _ _ _ _ elements => AllPlain elements
  | .CharacterClassRange min max => Plain min ∧ Plain max
  | .Character _ _ | .CharacterSet _ => True

def AllPlain : List Node → Prop
  | [] => True
  | node :: nodes => Plain node ∧ AllPlain nodes

end

mutual

/-- The node with nothing that matches in place of the quantifiers with a minimum above 0 and of the classes. -/
def withoutCounted : Node → Node
  | .Alternative elements => .Alternative (allWithoutCounted elements)
  | .CapturingGroup opening number alternatives => .CapturingGroup opening number (allWithoutCounted alternatives)
  | .Group opening alternatives => .Group opening (allWithoutCounted alternatives)
  | .Pattern alternatives => .Pattern (allWithoutCounted alternatives)
  | node@(.Quantifier _ min _ _ _) => if min = 0 then node else .Group [] []
  | node@(.Character _ _) => node
  | _ => .Group [] []

def allWithoutCounted : List Node → List Node
  | [] => []
  | node :: nodes => withoutCounted node :: allWithoutCounted nodes

end

section Words

variable {leaf : Node → Language ℕ}

theorem nil_mem_mul {l m : Language ℕ} : [] ∈ l * m ↔ [] ∈ l ∧ [] ∈ m := by
  simp [Language.mem_mul]

theorem nil_mem_pow {l : Language ℕ} {n : ℕ} : [] ∈ l ^ n ↔ n = 0 ∨ [] ∈ l := by
  induction n with
  | zero => simp
  | succ n ih =>
    rw [pow_succ, nil_mem_mul, ih]
    constructor
    · exact fun h => .inr h.2
    · exact fun h => ⟨.inr (h.resolve_left n.succ_ne_zero), h.resolve_left n.succ_ne_zero⟩

theorem nil_mem_between {min : ℕ} {max : Option ℕ} {l : Language ℕ} (h : ∀ m ∈ max, min ≤ m) :
    [] ∈ between min max l ↔ min = 0 ∨ [] ∈ l := by
  have hmem : [] ∈ between min max l ↔ ∃ n, (min ≤ n ∧ ∀ m ∈ max, n ≤ m) ∧ [] ∈ l ^ n := Iff.rfl
  rw [hmem]
  constructor
  · rintro ⟨n, ⟨hmin, -⟩, hword⟩
    rcases nil_mem_pow.mp hword with rfl | hword
    · exact .inl (Nat.le_zero.mp hmin)
    · exact .inr hword
  · rintro (rfl | hword)
    · exact ⟨0, ⟨le_rfl, fun _ _ => Nat.zero_le _⟩, nil_mem_pow.mpr (.inl rfl)⟩
    · exact ⟨min, ⟨le_rfl, h⟩, nil_mem_pow.mpr (.inr hword)⟩

theorem not_nil_mem_empty (opening : JsString) : [] ∉ language leaf (.Group opening []) := by
  rw [language, union]
  exact Language.notMem_zero _

mutual

/-- What is found is that the node without counted quantifiers and classes matches the empty string. -/
theorem matchEmptyString_eq : ∀ node, Plain node →
    (matchEmptyString node = true ↔ [] ∈ language leaf (withoutCounted node))
  | .Alternative elements, h => by
    rw [matchEmptyString, withoutCounted, language]
    exact everyMatch_eq elements (by simpa [Plain] using h)
  | .CapturingGroup _ _ alternatives, h | .Group _ alternatives, h | .Pattern alternatives, h => by
    rw [matchEmptyString, withoutCounted, language]
    exact someMatch_eq alternatives (by simpa [Plain] using h)
  | .Quantifier element min max greedy quantifier, h => by
    have hbounds : ∀ m ∈ max, min ≤ m := by
      rw [Plain] at h
      exact h.2
    rw [matchEmptyString, withoutCounted]
    by_cases hmin : min = 0
    · rw [if_pos hmin, language, nil_mem_between hbounds]
      simp [hmin]
    · rw [if_neg hmin]
      exact iff_of_false (by simpa using hmin) (not_nil_mem_empty [])
  | .Character _ value, _ => by
    rw [matchEmptyString, withoutCounted, language]
    · exact iff_of_false (by simp) fun hnil => nomatch Set.mem_singleton_iff.mp hnil
    all_goals simp
  | .CharacterSet _, _ | .CharacterClass _ _, _ | .CharacterClassRange _ _, _ | .ClassOperation _ _ _ _ _, _ => by
    rw [matchEmptyString, withoutCounted]
    · exact iff_of_false (by simp) (not_nil_mem_empty [])
    all_goals simp

theorem everyMatch_eq : ∀ nodes, AllPlain nodes →
    (everyMatch nodes = true ↔ [] ∈ concatenation leaf (allWithoutCounted nodes))
  | [], _ => by simp [everyMatch, allWithoutCounted, concatenation]
  | node :: nodes, h => by
    rw [AllPlain] at h
    rw [everyMatch, allWithoutCounted, concatenation, nil_mem_mul, Bool.and_eq_true,
      matchEmptyString_eq node h.1, everyMatch_eq nodes h.2]

theorem someMatch_eq : ∀ nodes, AllPlain nodes →
    (someMatch nodes = true ↔ [] ∈ union leaf (allWithoutCounted nodes))
  | [], _ => by
    rw [someMatch, allWithoutCounted, union]
    exact iff_of_false (by simp) (Language.notMem_zero _)
  | node :: nodes, h => by
    rw [AllPlain] at h
    rw [someMatch, allWithoutCounted, union, Language.mem_add, Bool.or_eq_true,
      matchEmptyString_eq node h.1, someMatch_eq nodes h.2]

end

mutual

theorem nil_mem_of_withoutCounted : ∀ node, [] ∈ language leaf (withoutCounted node) → [] ∈ language leaf node
  | .Alternative elements, h => by
    rw [withoutCounted, language] at h
    rw [language]
    exact nil_mem_of_allWithoutCounted_all elements h
  | .CapturingGroup _ _ alternatives, h | .Group _ alternatives, h | .Pattern alternatives, h => by
    rw [withoutCounted, language] at h
    rw [language]
    exact nil_mem_of_allWithoutCounted_some alternatives h
  | .Quantifier _ min _ _ _, h => by
    rw [withoutCounted] at h
    split_ifs at h
    · exact h
    · exact absurd h (not_nil_mem_empty [])
  | .Character _ _, h => by rwa [withoutCounted] at h
  | .Lookaround _ _, h | .Edge _, h | .Backreference _, h | .CharacterSet _, h | .CharacterClass _ _, h
  | .CharacterClassRange _ _, h | .ClassOperation _ _ _ _ _, h => by
    rw [withoutCounted] at h
    · exact absurd h (not_nil_mem_empty [])
    all_goals simp

theorem nil_mem_of_allWithoutCounted_all : ∀ nodes,
    [] ∈ concatenation leaf (allWithoutCounted nodes) → [] ∈ concatenation leaf nodes
  | [], h => by simpa [allWithoutCounted] using h
  | node :: nodes, h => by
    rw [allWithoutCounted, concatenation, nil_mem_mul] at h
    rw [concatenation, nil_mem_mul]
    exact ⟨nil_mem_of_withoutCounted node h.1, nil_mem_of_allWithoutCounted_all nodes h.2⟩

theorem nil_mem_of_allWithoutCounted_some : ∀ nodes,
    [] ∈ union leaf (allWithoutCounted nodes) → [] ∈ union leaf nodes
  | [], h => by simpa [allWithoutCounted] using h
  | node :: nodes, h => by
    rw [allWithoutCounted, union, Language.mem_add] at h
    rw [union, Language.mem_add]
    exact h.imp (nil_mem_of_withoutCounted node) (nil_mem_of_allWithoutCounted_some nodes)

end

end Words

/-! ### What is visited -/

mutual

theorem plain_of_visited {visit : Visit} : ∀ node parentType start, Plain node →
    visit ∈ node.visits parentType start → Plain visit.node
  | .Alternative elements, _, _, h, hmem => by
    rw [visits] at hmem
    rcases List.mem_cons.mp hmem with rfl | hmem
    · exact h
    · exact plain_of_visitedJoined elements _ _ _ (by simpa [Plain] using h) hmem
  | .CapturingGroup _ _ alternatives, _, _, h, hmem | .Group _ alternatives, _, _, h, hmem
  | .Pattern alternatives, _, _, h, hmem => by
    rw [visits] at hmem
    rcases List.mem_cons.mp hmem with rfl | hmem
    · exact h
    · exact plain_of_visitedJoined alternatives _ _ _ (by simpa [Plain] using h) hmem
  | .CharacterClass _ elements, _, _, h, hmem | .ClassOperation _ _ _ _ elements, _, _, h, hmem => by
    rw [visits] at hmem
    rcases List.mem_cons.mp hmem with rfl | hmem
    · exact h
    · exact plain_of_visitedJoined elements _ _ _ (by simpa [Plain] using h) hmem
  | .Quantifier element _ _ _ _, _, _, h, hmem => by
    rw [visits] at hmem
    rcases List.mem_cons.mp hmem with rfl | hmem
    · exact h
    · rw [Plain] at h
      exact plain_of_visited element _ _ h.1 hmem
  | .CharacterClassRange min max, _, _, h, hmem => by
    rw [visits] at hmem
    rcases List.mem_cons.mp hmem with rfl | hmem
    · exact h
    · rw [Plain] at h
      rcases List.mem_append.mp hmem with hmem | hmem
      · exact plain_of_visited min _ _ h.1 hmem
      · exact plain_of_visited max _ _ h.2 hmem
  | .Character _ _, _, _, h, hmem | .CharacterSet _, _, _, h, hmem => by
    rw [visits, List.mem_singleton] at hmem
    rw [hmem]
    exact h

theorem plain_of_visitedJoined {visit : Visit} : ∀ nodes parentType separator start, AllPlain nodes →
    visit ∈ visitsJoined parentType separator start nodes → Plain visit.node
  | [], _, _, _, _, hmem => by
    rw [visitsJoined] at hmem
    cases hmem
  | node :: nodes, _, _, _, h, hmem => by
    rw [AllPlain] at h
    rw [visitsJoined] at hmem
    rcases List.mem_append.mp hmem with hmem | hmem
    · exact plain_of_visited node _ _ h.1 hmem
    · exact plain_of_visitedJoined nodes _ _ _ h.2 hmem

end

theorem plain_of_quantified {pattern : Node} (h : Plain pattern) {entry : Node × Node}
    (hmem : entry ∈ quantified pattern) : Plain entry.2 := by
  obtain ⟨visit, hvisit, heq⟩ := List.mem_filterMap.mp hmem
  have hplain := plain_of_visited pattern _ _ h hvisit
  split at heq
  · next node element min max greedy quantifier hnode =>
    obtain rfl := Option.some.inj heq
    rw [hnode, Plain] at hplain
    exact hplain.1
  · cases heq

/-! ### Counted quantifiers -/

/-- What is asked of a node: the answer is right, and so are the reports for the quantifiers in it. -/
structure Right (leaf : Node → Language ℕ) (node : Node) : Prop where
  answer : matchEmptyString node = true ↔ [] ∈ language leaf node
  reports : ∀ entry ∈ quantified node, (entry ∈ reported node ↔ [] ∈ language leaf entry.2)

/-- If the node matches the empty string, it still does so without its counted quantifiers and its classes. -/
def Uncounted (leaf : Node → Language ℕ) (node : Node) : Prop :=
  [] ∈ language leaf node → [] ∈ language leaf (withoutCounted node)

theorem answer_iff {leaf : Node → Language ℕ} {node : Node} (h : Plain node) :
    (matchEmptyString node = true ↔ [] ∈ language leaf node) ↔ Uncounted leaf node := by
  rw [matchEmptyString_eq node h]
  exact ⟨Iff.mpr, fun huncounted => ⟨nil_mem_of_withoutCounted node, huncounted⟩⟩

/-- **When the reports are right.** -/
theorem matchEmptyString_iff (leaf : Node → Language ℕ) (node : Node) (h : Plain node) :
    Right leaf node ↔ Uncounted leaf node ∧ ∀ entry ∈ quantified node, Uncounted leaf entry.2 := by
  have hreported : ∀ entry ∈ quantified node, (entry ∈ reported node ↔ matchEmptyString entry.2 = true) :=
    fun entry hentry => by rw [reported, List.mem_filter, and_iff_right hentry]
  constructor
  · intro hright
    refine ⟨(answer_iff h).mp hright.answer, fun entry hentry => ?_⟩
    rw [← answer_iff (plain_of_quantified h hentry), ← hreported entry hentry]
    exact hright.reports entry hentry
  · rintro ⟨hnode, hentries⟩
    refine ⟨(answer_iff h).mpr hnode, fun entry hentry => ?_⟩
    rw [hreported entry hentry, answer_iff (plain_of_quantified h hentry)]
    exact hentries entry hentry

def character (c : Char) : Node := .Character [c.toNat] c.toNat

def repetition (element : Node) (min : ℕ) (quantifier : String) : Node :=
  .Quantifier element min none true (units quantifier)

def pattern (element : Node) : Node := .Pattern [.Alternative [element]]

/-- `a*` matches the empty string, and its element does not. -/
theorem matchEmptyString_iff_star : Right (fun _ => 0) (pattern (repetition (character 'a') 0 "*")) := by
  refine (matchEmptyString_iff _ _ ?_).mpr ⟨fun h => ?_, fun entry hentry h => ?_⟩
  · simp [pattern, repetition, character, Plain, AllPlain]
  · simpa [pattern, repetition, withoutCounted, allWithoutCounted] using h
  · have hentry : entry = (repetition (character 'a') 0 "*", character 'a') := by
      simpa [quantified, pattern, repetition, character, visits, visitsJoined] using hentry
    rw [hentry] at h ⊢
    simpa [character, withoutCounted] using h

/-- `(?:a*)+` -/
def nested : Node := repetition (.Group (units "(?:") [.Alternative [repetition (character 'a') 0 "*"]]) 1 "+"

/-- The answer for `(?:a*)+` is wrong, and a repetition of it is not reported. -/
theorem nested_not_right : ¬ Right (fun _ => 0) nested ∧
    ¬ Right (fun _ => 0) (pattern (repetition (.Group (units "(?:") [.Alternative [nested]]) 0 "*")) := by
  have hstar : [] ∈ language (fun _ => 0) (.Group (units "(?:") [.Alternative [repetition (character 'a') 0 "*"]]) := by
    simp only [language, union, concatenation, repetition, mul_one, add_zero]
    exact (nil_mem_between (by simp)).mpr (.inl rfl)
  have hnested : [] ∈ language (fun _ => 0) nested := by
    rw [nested, repetition, language]
    exact (nil_mem_between (by simp)).mpr (.inr hstar)
  refine ⟨fun h => by simpa [nested, repetition, matchEmptyString] using h.answer.mpr hnested, fun h => ?_⟩
  have hgroup : [] ∈ language (fun _ => 0) (.Group (units "(?:") [.Alternative [nested]]) := by
    simpa only [language, union, concatenation, mul_one, add_zero] using hnested
  have hentry := (h.reports (repetition (.Group (units "(?:") [.Alternative [nested]]) 0 "*",
    .Group (units "(?:") [.Alternative [nested]]) (by simp [quantified, pattern, repetition, visits, visitsJoined])).mpr hgroup
  simpa [nested, repetition, matchEmptyString, someMatch, everyMatch] using (List.mem_filter.mp hentry).2

end SonarJavascript.Rules.EmptyStringRepetition
