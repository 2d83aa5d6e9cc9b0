import Mathlib.Data.Nat.Notation

/-!
# Regular expressions

The syntax trees of `regexpp`. A node has the text that it was parsed from, and the visitor goes through the nodes
from left to right, each with its start in the text of the literal and the type of its parent.
-/

namespace SonarJavascript.Regex

/-- The code units of a text. -/
abbrev JsString := List ℕ

/-- Of a text without astral characters. -/
def units (text : String) : JsString := text.toList.map Char.toNat

/-- `opening` is the text up to the first part, such as `(?:` or `[^`. A lookaround and an edge are both an
`Assertion`. What the flag `v` allows in classes is a `ClassOperation`. -/
inductive Node
  | Pattern (alternatives : List Node)
  | Alternative (elements : List Node)
  | Group (opening : JsString) (alternatives : List Node)
  | CapturingGroup (opening : JsString) (number : ℕ) (alternatives : List Node)
  | Lookaround (opening : JsString) (alternatives : List Node)
  | Edge (raw : JsString)
  | Quantifier (element : Node) (min : ℕ) (max : Option ℕ) (greedy : Bool) (quantifier : JsString)
  | Character (raw : JsString) (value : ℕ)
  | CharacterSet (raw : JsString)
  | CharacterClass (opening : JsString) (elements : List Node)
  | CharacterClassRange (min max : Node)
  | ClassOperation (type : String) (opening separator closing : JsString) (operands : List Node)
  | Backreference (raw : JsString)

namespace Node

def type : Node → String
  | Pattern _ => "Pattern"
  | Alternative _ => "Alternative"
  | Group _ _ => "Group"
  | CapturingGroup _ _ _ => "CapturingGroup"
  | Lookaround _ _ | Edge _ => "Assertion"
  | Quantifier _ _ _ _ _ => "Quantifier"
  | Character _ _ => "Character"
  | CharacterSet _ => "CharacterSet"
  | CharacterClass _ _ => "CharacterClass"
  | CharacterClassRange _ _ => "CharacterClassRange"
  | ClassOperation type _ _ _ _ => type
  | Backreference _ => "Backreference"

mutual

def raw : Node → JsString
  | Pattern alternatives => rawJoined (units "|") alternatives
  | Alternative elements => rawJoined [] elements
  | Group opening alternatives | CapturingGroup opening _ alternatives | Lookaround opening alternatives =>
    opening ++ rawJoined (units "|") alternatives ++ units ")"
  | Quantifier element _ _ _ quantifier => element.raw ++ quantifier
  | CharacterClass opening elements => opening ++ rawJoined [] elements ++ units "]"
  | CharacterClassRange min max => min.raw ++ units "-" ++ max.raw
  | ClassOperation _ opening separator closing operands => opening ++ rawJoined separator operands ++ closing
  | Edge raw | Character raw _ | CharacterSet raw | Backreference raw => raw

def rawJoined (separator : JsString) : List Node → JsString
  | [] => []
  | [node] => node.raw
  | node :: nodes => node.raw ++ separator ++ rawJoined separator nodes

end

/-- A node as a handler of the visitor gets it. -/
structure Visit where
  node : Node
  start : ℕ
  parentType : String

mutual

/-- `visitRegExpAST`, from a node that starts at `start`. -/
def visits (parentType : String) (start : ℕ) : Node → List Visit
  | node@(Pattern alternatives) =>
    ⟨node, start, parentType⟩ :: visitsJoined node.type (units "|") start alternatives
  | node@(Alternative elements) => ⟨node, start, parentType⟩ :: visitsJoined node.type [] start elements
  | node@(Group opening alternatives) | node@(CapturingGroup opening _ alternatives)
  | node@(Lookaround opening alternatives) =>
    ⟨node, start, parentType⟩ :: visitsJoined node.type (units "|") (start + opening.length) alternatives
  | node@(Quantifier element _ _ _ _) => ⟨node, start, parentType⟩ :: visits node.type start element
  | node@(CharacterClass opening elements) =>
    ⟨node, start, parentType⟩ :: visitsJoined node.type [] (start + opening.length) elements
  | node@(CharacterClassRange min max) =>
    ⟨node, start, parentType⟩ ::
      (visits node.type start min ++ visits node.type (start + min.raw.length + 1) max)
  | node@(ClassOperation _ opening separator _ operands) =>
    ⟨node, start, parentType⟩ :: visitsJoined node.type separator (start + opening.length) operands
  | node@(Edge _) | node@(Character _ _) | node@(CharacterSet _) | node@(Backreference _) =>
    [⟨node, start, parentType⟩]

def visitsJoined (parentType : String) (separator : JsString) (start : ℕ) : List Node → List Visit
  | [] => []
  | node :: nodes =>
    visits parentType start node ++
      visitsJoined parentType separator (start + node.raw.length + separator.length) nodes

end

/-- The text of a part of a node stands at its start. -/
def StandsIn (visit : Visit) (start : ℕ) (text : JsString) : Prop :=
  ∃ before after, text = before ++ visit.node.raw ++ after ∧ visit.start = start + before.length

section StandsIn

variable {visit : Visit} {start : ℕ} {text : JsString}

theorem StandsIn.self (parentType : String) (start : ℕ) (node : Node) :
    StandsIn ⟨node, start, parentType⟩ start node.raw :=
  ⟨[], [], by rw [List.nil_append, List.append_nil], rfl⟩

theorem StandsIn.append {before : JsString} (h : StandsIn visit (start + before.length) text) (after : JsString) :
    StandsIn visit start (before ++ text ++ after) := by
  obtain ⟨before', after', rfl, hstart⟩ := h
  refine ⟨before ++ before', after' ++ after, by simp only [List.append_assoc], ?_⟩
  rw [hstart, List.length_append, Nat.add_assoc]

theorem StandsIn.append_right (h : StandsIn visit start text) (after : JsString) : StandsIn visit start (text ++ after) := by
  obtain ⟨before, after', rfl, hstart⟩ := h
  exact ⟨before, after' ++ after, by simp only [List.append_assoc], hstart⟩

theorem StandsIn.append_left {before : JsString} (h : StandsIn visit (start + before.length) text) :
    StandsIn visit start (before ++ text) := by
  obtain ⟨before', after, rfl, hstart⟩ := h
  refine ⟨before ++ before', after, by simp only [List.append_assoc], ?_⟩
  rw [hstart, List.length_append, Nat.add_assoc]

end StandsIn

mutual

theorem visits_standsIn {visit : Visit} : ∀ (node : Node) (parentType : String) (start : ℕ),
    visit ∈ visits parentType start node → StandsIn visit start node.raw
  | Pattern alternatives, _, start, h | Alternative alternatives, _, start, h => by
    rw [visits] at h
    rcases List.mem_cons.mp h with rfl | h
    · exact .self _ _ _
    · rw [raw]
      exact visitsJoined_standsIn alternatives _ _ _ h
  | Group opening alternatives, _, start, h | CapturingGroup opening _ alternatives, _, start, h
  | Lookaround opening alternatives, _, start, h | CharacterClass opening alternatives, _, start, h => by
    rw [visits] at h
    rcases List.mem_cons.mp h with rfl | h
    · exact .self _ _ _
    · rw [raw]
      exact (visitsJoined_standsIn alternatives _ _ _ h).append _
  | ClassOperation _ opening separator _ operands, _, start, h => by
    rw [visits] at h
    rcases List.mem_cons.mp h with rfl | h
    · exact .self _ _ _
    · rw [raw]
      exact (visitsJoined_standsIn operands _ _ _ h).append _
  | Quantifier element _ _ _ _, _, start, h => by
    rw [visits] at h
    rcases List.mem_cons.mp h with rfl | h
    · exact .self _ _ _
    · rw [raw]
      exact (visits_standsIn element _ _ h).append_right _
  | CharacterClassRange min max, _, start, h => by
    rw [visits] at h
    rcases List.mem_cons.mp h with rfl | h
    · exact .self _ _ _
    · rw [raw]
      rcases List.mem_append.mp h with h | h
      · exact ((visits_standsIn min _ _ h).append_right _).append_right _
      · have hmax := visits_standsIn max _ _ h
        rw [Nat.add_assoc, show min.raw.length + 1 = (min.raw ++ units "-").length by rw [List.length_append]; rfl] at hmax
        exact hmax.append_left
  | Edge _, _, start, h | Character _ _, _, start, h | CharacterSet _, _, start, h | Backreference _, _, start, h => by
    rw [visits, List.mem_singleton] at h
    rw [h]
    exact .self _ _ _

theorem visitsJoined_standsIn {visit : Visit} : ∀ (nodes : List Node) (parentType : String) (separator : JsString)
    (start : ℕ), visit ∈ visitsJoined parentType separator start nodes →
      StandsIn visit start (rawJoined separator nodes)
  | [], _, _, _, h => by
    rw [visitsJoined] at h
    cases h
  | [node], _, separator, start, h => by
    rw [visitsJoined, visitsJoined, List.append_nil] at h
    rw [rawJoined]
    exact visits_standsIn node _ _ h
  | node :: next :: nodes, _, separator, start, h => by
    rw [visitsJoined] at h
    rw [rawJoined]
    · rcases List.mem_append.mp h with h | h
      · exact ((visits_standsIn node _ _ h).append_right _).append_right _
      · have hrest := visitsJoined_standsIn (next :: nodes) _ _ _ h
        rw [Nat.add_assoc, ← List.length_append] at hrest
        exact hrest.append_left
    · exact List.cons_ne_nil _ _

end

end Node

end SonarJavascript.Regex
