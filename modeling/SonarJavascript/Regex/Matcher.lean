import SonarJavascript.Lib.Repetition
import SonarJavascript.Regex.Ast

/-!
# The matcher of ECMAScript

The ways to match a node from a state, in the order in which the matcher tries them: the first one is what a match
takes. The characters of the text are code units, or code points with the flags `u` and `v`. What classes contain, how
characters are compared and what a backreference refers to is left to an `Engine`.
-/

namespace SonarJavascript.Regex

open Repetition

inductive Direction
  | forward
  | backward
  deriving DecidableEq

/-- One index can be behind the other in a text with this length. -/
def Direction.Leads (length : ℕ) : Direction → ℕ → ℕ → Prop
  | .forward, i, j => i ≤ j ∧ (i ≤ length → j ≤ length)
  | .backward, i, j => j ≤ i

structure State where
  index : ℕ
  captures : ℕ → Option (ℕ × ℕ)

namespace State

/-- In front of the first match, nothing is captured. -/
def initial (index : ℕ) : State := ⟨index, fun _ => none⟩

def moveTo (x : State) (index : ℕ) : State := { x with index }

/-- What the groups have captured is forgotten. -/
def reset (groups : List ℕ) (x : State) : State :=
  { x with captures := fun number => if number ∈ groups then none else x.captures number }

def capture (number start : ℕ) (direction : Direction) (x : State) : State :=
  let range := match direction with
    | .forward => (start, x.index)
    | .backward => (x.index, start)
  { x with captures := fun number' => if number' = number then some range else x.captures number' }

end State

structure Engine where
  text : List ℕ
  /-- The flags in a group with this opening. -/
  enter : JsString → JsString → JsString
  /-- Where a character, a set or a class can end. -/
  character : JsString → Node → Direction → ℕ → List ℕ
  backreference : JsString → JsString → (ℕ → Option (ℕ × ℕ)) → Direction → ℕ → List ℕ
  wordBoundary : JsString → JsString → ℕ → Bool
  character_leads : ∀ flags node direction i, ∀ j ∈ character flags node direction i, direction.Leads text.length i j
  backreference_leads : ∀ flags raw captures direction i, ∀ j ∈ backreference flags raw captures direction i,
    direction.Leads text.length i j
  /-- `[^]` -/
  character_any : ∀ flags i, i < text.length → character flags (.CharacterClass (units "[^") []) .forward i = [i + 1]
  character_end : ∀ flags, character flags (.CharacterClass (units "[^") []) .forward text.length = []

namespace Engine

def isLineTerminator (c : ℕ) : Bool := c ∈ [10, 13, 0x2028, 0x2029]

variable (E : Engine)

def lineTerminatorAt (i : ℕ) : Bool := E.text[i]?.any isLineTerminator

/-- With the flag `m`, the edges of lines are edges. -/
def isEdge (flags raw : JsString) (i : ℕ) : Bool :=
  if raw = units "$" then i = E.text.length || (109 ∈ flags && E.lineTerminatorAt i)
  else if raw = units "^" then i = 0 || (109 ∈ flags && E.lineTerminatorAt (i - 1))
  else E.wordBoundary flags raw i

/-- It decreases with each turn that takes something. -/
def remaining (direction : Direction) (x : State) : ℕ :=
  match direction with
  | .forward => E.text.length - x.index
  | .backward => x.index

end Engine

namespace Node

mutual

/-- The capturing groups in a node. -/
def groups : Node → List ℕ
  | .Pattern alternatives | .Group _ alternatives | .Lookaround _ alternatives => groupsOfAll alternatives
  | .Alternative elements => groupsOfAll elements
  | .CapturingGroup _ number alternatives => number :: groupsOfAll alternatives
  | .Quantifier element _ _ _ _ => groups element
  | _ => []

def groupsOfAll : List Node → List ℕ
  | [] => []
  | node :: nodes => groups node ++ groupsOfAll nodes

end

end Node

/-- Where a lookaround looks to, and whether it is negated. -/
def lookDirection (opening : JsString) : Direction :=
  if opening = units "(?<=" ∨ opening = units "(?<!" then .backward else .forward

def isNegated (opening : JsString) : Bool := opening = units "(?!" || opening = units "(?<!"

namespace Engine

variable (E : Engine)

mutual

def ways : Node → JsString → Direction → State → List State
  | .Pattern alternatives, flags, direction, x => waysOfAny alternatives flags direction x
  | .Alternative elements, flags, direction, x => waysOfAll elements flags direction x
  | .Group opening alternatives, flags, direction, x => waysOfAny alternatives (E.enter opening flags) direction x
  | .CapturingGroup _ number alternatives, flags, direction, x =>
    (waysOfAny alternatives flags direction x).map fun y => y.capture number x.index direction
  | .Lookaround opening alternatives, flags, _, x =>
    -- what a lookaround has found is not changed later
    let found := (waysOfAny alternatives flags (lookDirection opening) x).head?
    if isNegated opening then if found.isNone then [x] else []
    else (found.map fun y => y.moveTo x.index).toList
  | .Edge raw, flags, _, x => if E.isEdge flags raw x.index then [x] else []
  | .Quantifier element min max greedy _, flags, direction, x =>
    (repeated (fun y => ways element flags direction (y.reset element.groups)) (E.remaining direction) greedy min max x).map
      Prod.snd
  | .Backreference raw, flags, direction, x => (E.backreference flags raw x.captures direction x.index).map x.moveTo
  | .Character raw value, flags, direction, x =>
    (E.character flags (.Character raw value) direction x.index).map x.moveTo
  | .CharacterSet raw, flags, direction, x => (E.character flags (.CharacterSet raw) direction x.index).map x.moveTo
  | .CharacterClass opening elements, flags, direction, x =>
    (E.character flags (.CharacterClass opening elements) direction x.index).map x.moveTo
  | .CharacterClassRange _ _, _, _, _ | .ClassOperation _ _ _ _ _, _, _, _ => []

def waysOfAny : List Node → JsString → Direction → State → List State
  | [], _, _, _ => []
  | node :: nodes, flags, direction, x => ways node flags direction x ++ waysOfAny nodes flags direction x

def waysOfAll : List Node → JsString → Direction → State → List State
  | [], _, _, x => [x]
  | node :: nodes, flags, direction, x =>
    match direction with
    | .forward => (ways node flags .forward x).flatMap fun y => waysOfAll nodes flags .forward y
    | .backward => (waysOfAll nodes flags .backward x).flatMap fun y => ways node flags .backward y

end

/-- A turn of a quantifier forgets what the groups in its element have captured. -/
def turn (element : Node) (flags : JsString) (direction : Direction) (x : State) : List State :=
  E.ways element flags direction (x.reset element.groups)

/-- The match that starts at an index. -/
def exec (pattern : Node) (flags : JsString) (start : ℕ) : Option State :=
  (E.ways pattern flags .forward (.initial start)).head?

end Engine

/-! ### Progress -/

namespace Direction

variable {length i j k : ℕ} {direction : Direction}

theorem Leads.refl (direction : Direction) (length i : ℕ) : direction.Leads length i i := by
  cases direction with
  | forward => exact ⟨Nat.le_refl i, id⟩
  | backward => exact Nat.le_refl i

theorem Leads.trans (h : direction.Leads length i j) (h' : direction.Leads length j k) : direction.Leads length i k := by
  cases direction with
  | forward => exact ⟨Nat.le_trans h.1 h'.1, fun hi => h'.2 (h.2 hi)⟩
  | backward => exact Nat.le_trans h' h

end Direction

section Progress

variable (E : Engine) (flags : JsString) (direction : Direction)

variable {E} {flags} {direction} {x y : State}

theorem leads_of_mem_map {indices : List ℕ} (h : ∀ j ∈ indices, direction.Leads E.text.length x.index j)
    (hmem : y ∈ indices.map x.moveTo) : direction.Leads E.text.length x.index y.index := by
  obtain ⟨j, hj, rfl⟩ := List.mem_map.mp hmem
  exact h j hj

theorem exists_of_mem_waysOfAll {node : Node} {nodes : List Node} (h : y ∈ E.waysOfAll (node :: nodes) flags direction x) :
    ∃ z, (z ∈ E.ways node flags direction x ∧ y ∈ E.waysOfAll nodes flags direction z) ∨
      (z ∈ E.waysOfAll nodes flags direction x ∧ y ∈ E.ways node flags direction z) := by
  cases direction with
  | forward =>
    rw [Engine.waysOfAll] at h
    obtain ⟨z, hz, hy⟩ := List.mem_flatMap.mp h
    exact ⟨z, Or.inl ⟨hz, hy⟩⟩
  | backward =>
    rw [Engine.waysOfAll] at h
    obtain ⟨z, hz, hy⟩ := List.mem_flatMap.mp h
    exact ⟨z, Or.inr ⟨hz, hy⟩⟩

mutual

theorem leads_of_mem_ways : ∀ (node : Node) (flags : JsString) (x y : State), y ∈ E.ways node flags direction x →
    direction.Leads E.text.length x.index y.index
  | .Pattern alternatives, flags, x, y, h => leads_of_mem_waysOfAny alternatives flags x y (by rwa [Engine.ways] at h)
  | .Alternative elements, flags, x, y, h => leads_of_mem_waysOfAll elements flags x y (by rwa [Engine.ways] at h)
  | .Group opening alternatives, flags, x, y, h =>
    leads_of_mem_waysOfAny alternatives _ x y (by rwa [Engine.ways] at h)
  | .CapturingGroup _ number alternatives, flags, x, y, h => by
    rw [Engine.ways] at h
    obtain ⟨z, hz, rfl⟩ := List.mem_map.mp h
    exact leads_of_mem_waysOfAny alternatives flags x z hz
  | .Lookaround opening alternatives, flags, x, y, h => by
    rw [Engine.ways] at h
    have hindex : y.index = x.index := by
      split_ifs at h
      · exact congrArg State.index (List.mem_singleton.mp h)
      · exact absurd h List.not_mem_nil
      · obtain ⟨z, -, rfl⟩ := Option.map_eq_some_iff.mp (Option.mem_toList.mp h)
        rfl
    rw [hindex]
    exact .refl _ _ _
  | .Edge raw, flags, x, y, h => by
    rw [Engine.ways] at h
    split_ifs at h
    · rw [List.mem_singleton.mp h]
      exact .refl _ _ _
    · exact absurd h List.not_mem_nil
  | .Quantifier element min max greedy _, flags, x, y, h => by
    rw [Engine.ways] at h
    obtain ⟨⟨turns, z⟩, hz, rfl⟩ := List.mem_map.mp h
    refine rel_of_mem_repeated (r := fun x y => direction.Leads E.text.length x.index y.index)
      (fun _ => .refl _ _ _) (fun a b c (h : direction.Leads _ a.index b.index) h' => h.trans h') (fun a b hb => ?_) hz
    exact leads_of_mem_ways element flags (a.reset element.groups) b hb
  | .Backreference raw, flags, x, y, h => by
    rw [Engine.ways] at h
    exact leads_of_mem_map (E.backreference_leads flags raw x.captures direction x.index) h
  | .Character raw value, flags, x, y, h => by
    rw [Engine.ways] at h
    exact leads_of_mem_map (E.character_leads flags _ direction x.index) h
  | .CharacterSet raw, flags, x, y, h => by
    rw [Engine.ways] at h
    exact leads_of_mem_map (E.character_leads flags _ direction x.index) h
  | .CharacterClass opening elements, flags, x, y, h => by
    rw [Engine.ways] at h
    exact leads_of_mem_map (E.character_leads flags _ direction x.index) h
  | .CharacterClassRange _ _, flags, x, y, h | .ClassOperation _ _ _ _ _, flags, x, y, h => by
    rw [Engine.ways] at h
    exact absurd h List.not_mem_nil

theorem leads_of_mem_waysOfAny : ∀ (nodes : List Node) (flags : JsString) (x y : State),
    y ∈ E.waysOfAny nodes flags direction x → direction.Leads E.text.length x.index y.index
  | [], flags, x, y, h => by
    rw [Engine.waysOfAny] at h
    exact absurd h List.not_mem_nil
  | node :: nodes, flags, x, y, h => by
    rw [Engine.waysOfAny] at h
    rcases List.mem_append.mp h with h | h
    · exact leads_of_mem_ways node flags x y h
    · exact leads_of_mem_waysOfAny nodes flags x y h

theorem leads_of_mem_waysOfAll : ∀ (nodes : List Node) (flags : JsString) (x y : State),
    y ∈ E.waysOfAll nodes flags direction x → direction.Leads E.text.length x.index y.index
  | [], flags, x, y, h => by
    rw [Engine.waysOfAll] at h
    rw [List.mem_singleton.mp h]
    exact .refl _ _ _
  | node :: nodes, flags, x, y, h => by
    obtain ⟨z, ⟨hz, hy⟩ | ⟨hz, hy⟩⟩ := exists_of_mem_waysOfAll h
    · exact (leads_of_mem_ways node flags x z hz).trans (leads_of_mem_waysOfAll nodes flags z y hy)
    · exact (leads_of_mem_waysOfAll nodes flags x z hz).trans (leads_of_mem_ways node flags z y hy)

end

end Progress

/-! ### Parts of a pattern -/

namespace Engine

variable {E : Engine} {flags : JsString} {x : State}

theorem waysOfAll_append (before after : List Node) : E.waysOfAll (before ++ after) flags .forward x =
    (E.waysOfAll before flags .forward x).flatMap fun y => E.waysOfAll after flags .forward y := by
  induction before generalizing x with
  | nil => rw [List.nil_append, waysOfAll, List.flatMap_singleton]
  | cons node before ih =>
    rw [List.cons_append, waysOfAll, waysOfAll, List.flatMap_assoc]
    exact congrArg (fun continuation => List.flatMap continuation _) (funext fun y => ih)

theorem waysOfAll_singleton (node : Node) : E.waysOfAll [node] flags .forward x = E.ways node flags .forward x := by
  rw [waysOfAll]
  simp only [waysOfAll, List.flatMap_singleton']

theorem waysOfAny_append (earlier later : List Node) : E.waysOfAny (earlier ++ later) flags .forward x =
    E.waysOfAny earlier flags .forward x ++ E.waysOfAny later flags .forward x := by
  induction earlier with
  | nil => rw [List.nil_append, waysOfAny, List.nil_append]
  | cons node earlier ih => rw [List.cons_append, waysOfAny, waysOfAny, ih, List.append_assoc]

theorem ways_quantifier (element : Node) (min : ℕ) (max : Option ℕ) (greedy : Bool) (text : JsString) :
    E.ways (.Quantifier element min max greedy text) flags .forward x =
      (repeated (E.turn element flags .forward) (E.remaining .forward) greedy min max x).map Prod.snd := by
  rw [ways]
  rfl

theorem exec_pattern (alternatives : List Node) (start : ℕ) :
    E.exec (.Pattern alternatives) flags start = (E.waysOfAny alternatives flags .forward (.initial start)).head? := by
  rw [exec, ways]

theorem waysOfAll_edge (nodes : List Node) (raw : JsString) : E.waysOfAll (nodes ++ [.Edge raw]) flags .forward x =
    (E.waysOfAll nodes flags .forward x).filter fun y => E.isEdge flags raw y.index := by
  rw [waysOfAll_append]
  generalize E.waysOfAll nodes flags .forward x = found
  induction found with
  | nil => rfl
  | cons y found ih =>
    rw [List.flatMap_cons, ih, waysOfAll, ways, List.filter_cons]
    split_ifs
    · rw [List.flatMap_singleton, waysOfAll, List.singleton_append]
    · rw [List.flatMap_nil, List.nil_append]

theorem mem_ways_quantifier {element : Node} {min : ℕ} {max : Option ℕ} {text text' : JsString} {y : State} :
    y ∈ E.ways (.Quantifier element min max false text) flags .forward x ↔
      y ∈ E.ways (.Quantifier element min max true text') flags .forward x := by
  rw [ways_quantifier, ways_quantifier, List.mem_map, List.mem_map]
  refine exists_congr fun way => and_congr_left fun _ => ?_
  obtain ⟨turns, z⟩ := way
  exact mem_repeated false true

end Engine

end SonarJavascript.Regex
