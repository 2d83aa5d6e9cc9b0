import Mathlib.Data.List.Basic
import Mathlib.Data.List.Induction
import SonarJavascript.Regex.Ast

/-!
# The grammar of patterns

A tree with its text is a parse of the text when every part of it may be followed by what comes after it. What the
single characters, escapes, classes and quantifiers of a pattern look like is left to a `Grammar`.

`isParse_fill`: where a run of spaces in an alternative is written with a quantifier, the tree with the quantifier
is a parse of the new text.
-/

namespace SonarJavascript.Regex

/-! ### Quantifiers -/

def isDecimal (c : ℕ) : Bool := 48 ≤ c && c ≤ 57

inductive BraceStage
  | first | lower | upper

/-- The text goes on with digits, perhaps a comma and digits, and a closing brace. -/
def closesBraces : BraceStage → JsString → Bool
  | _, [] => false
  | .first, c :: rest => isDecimal c && closesBraces .lower rest
  | .lower, c :: rest => if isDecimal c then closesBraces .lower rest else c == 125 || (c == 44 && closesBraces .upper rest)
  | .upper, c :: rest => if isDecimal c then closesBraces .upper rest else c == 125

/-- `*`, `+`, `?`, or braces with numbers. -/
def beginsQuantifier : JsString → Bool
  | [] => false
  | c :: rest => c == 42 || c == 43 || c == 63 || (c == 123 && closesBraces .first rest)

/-- `{n}` -/
def braces (n : ℕ) : JsString := units "\x7b" ++ units (toString n) ++ units "\x7d"

def spaces (n : ℕ) : JsString := List.replicate n 32

theorem closesBraces_space (stage : BraceStage) (text rest rest' : JsString) :
    closesBraces stage (text ++ 32 :: rest) = closesBraces stage (text ++ 32 :: rest') := by
  induction text generalizing stage with
  | nil => cases stage <;> rfl
  | cons c text ih => cases stage <;> simp only [List.cons_append, closesBraces, ih]

theorem beginsQuantifier_space (text rest rest' : JsString) :
    beginsQuantifier (text ++ 32 :: rest) = beginsQuantifier (text ++ 32 :: rest') := by
  cases text with
  | nil => rfl
  | cons c text => simp only [List.cons_append, beginsQuantifier, closesBraces_space .first text rest rest']

theorem spaces_succ (n : ℕ) : spaces (n + 1) = 32 :: spaces n := List.replicate_succ

/-! ### Trees -/

namespace Node

def isAlternative : Node → Bool
  | Alternative _ => true
  | _ => false

/-- What an alternative consists of. -/
def isTerm : Node → Bool
  | Pattern _ | Alternative _ | CharacterClassRange _ _ | ClassOperation _ _ _ _ _ => false
  | _ => true

/-- What a quantifier may stand behind. -/
def isAtom : Node → Bool
  | Pattern _ | Alternative _ | CharacterClassRange _ _ | ClassOperation _ _ _ _ _ | Quantifier _ _ _ _ _ => false
  | _ => true

end Node

open Node

/-- What the parser knows of single characters, escapes, classes and edges (`leaf`, with the text behind them), of the
texts that open groups and of the texts of quantifiers. -/
structure Grammar where
  leaf : Node → JsString → Prop
  opening : JsString → Prop
  quantifier : JsString → ℕ → Option ℕ → Bool → Prop
  /-- Only a space, perhaps an escaped one, has a text that ends with a space. -/
  leaf_ends : ∀ node rest, leaf node rest → node.raw ≠ [] ∧ (node.raw.getLast? = some 32 →
    ∃ escape, node = .Character (escape ++ [32]) 32 ∧ escape.getLast? ≠ some 32)
  opening_ends : ∀ text, opening text → text ≠ [] ∧ text.getLast? ≠ some 32
  quantifier_ends : ∀ text min max greedy, quantifier text min max greedy → text ≠ [] ∧ text.getLast? ≠ some 32
  quantifier_braces : ∀ n, quantifier (braces n) n (some n) true
  /-- Anything may come behind a space. -/
  leaf_space : ∀ escape rest rest', leaf (.Character (escape ++ [32]) 32) rest → leaf (.Character (escape ++ [32]) 32) rest'
  /-- What is before a run of spaces may also be before a quantified space. -/
  leaf_run : ∀ node before n after, 2 ≤ n → leaf node (before ++ spaces n ++ after) →
    leaf node (before ++ 32 :: braces n ++ after)
  /-- There are no alternatives in a class. -/
  leaf_class : ∀ opening elements rest, leaf (.CharacterClass opening elements) rest →
    ∀ start, ∀ visit ∈ visitsJoined "CharacterClass" [] start elements, visit.parentType ≠ "Alternative"

/-- Between alternatives there are bars, between terms there is nothing. -/
def separator (terms : Bool) : JsString := if terms then [] else units "|"

/-- The text behind a part, with the parts that follow. -/
def following (terms : Bool) (nodes : List Node) (rest : JsString) : JsString :=
  match nodes with
  | [] => rest
  | _ :: _ => separator terms ++ rawJoined (separator terms) nodes ++ rest

/-- The text before a part, with the parts before it. -/
def preceding (terms : Bool) (nodes : List Node) : JsString := nodes.flatMap fun node => node.raw ++ separator terms

/-- A quantifier behind a term would belong to it. -/
def IsPart (terms : Bool) (node : Node) (rest : JsString) : Prop :=
  if terms then node.isTerm = true ∧ beginsQuantifier rest = false else node.isAlternative = true

variable (G : Grammar)

mutual

/-- The node is a parse of its text in front of the rest. -/
def IsParse : Node → JsString → Prop
  | .Pattern alternatives, rest => PartsParse false alternatives rest
  | .Alternative elements, rest => PartsParse true elements rest
  | .Group opening alternatives, rest | .CapturingGroup opening _ alternatives, rest
  | .Lookaround opening alternatives, rest => G.opening opening ∧ PartsParse false alternatives (units ")" ++ rest)
  | .Quantifier element min max greedy quantifier, rest =>
    G.quantifier quantifier min max greedy ∧ element.isAtom = true ∧ IsParse element (quantifier ++ rest)
  | .CharacterClassRange _ _, _ | .ClassOperation _ _ _ _ _, _ => False
  | .CharacterClass opening elements, rest => G.leaf (.CharacterClass opening elements) rest
  | .Edge raw, rest => G.leaf (.Edge raw) rest
  | .Character raw value, rest => G.leaf (.Character raw value) rest
  | .CharacterSet raw, rest => G.leaf (.CharacterSet raw) rest
  | .Backreference raw, rest => G.leaf (.Backreference raw) rest

def PartsParse (terms : Bool) : List Node → JsString → Prop
  | [], _ => True
  | node :: nodes, rest =>
    IsPart terms node (following terms nodes rest) ∧ IsParse node (following terms nodes rest) ∧
      PartsParse terms nodes rest

end

/-! ### Texts -/

section Texts

variable {terms : Bool} {node : Node} {before after nodes : List Node} {rest : JsString}

theorem rawJoined_cons (node : Node) (nodes : List Node) :
    rawJoined (separator terms) (node :: nodes) = node.raw ++ following terms nodes [] := by
  cases nodes with
  | nil => simp [rawJoined, following]
  | cons next nodes => simp [rawJoined, following]

theorem following_append (rest : JsString) : following terms nodes rest = following terms nodes [] ++ rest := by
  cases nodes with
  | nil => rfl
  | cons node nodes => simp [following]

theorem rawJoined_append (before : List Node) (node : Node) (after : List Node) :
    rawJoined (separator terms) (before ++ node :: after) =
      preceding terms before ++ node.raw ++ following terms after [] := by
  induction before with
  | nil => simp [preceding, rawJoined_cons]
  | cons first before ih =>
    have hnext : following terms (before ++ node :: after) [] =
        separator terms ++ rawJoined (separator terms) (before ++ node :: after) := by
      cases before <;> simp [following]
    rw [List.cons_append, rawJoined_cons, hnext, ih]
    simp [preceding]

theorem preceding_true (nodes : List Node) : preceding true nodes = rawJoined [] nodes := by
  induction nodes with
  | nil => rfl
  | cons node nodes ih =>
    have h : rawJoined (separator true) (node :: nodes) = node.raw ++ following true nodes [] := rawJoined_cons node nodes
    have hfollowing : following true nodes [] = rawJoined [] nodes := by cases nodes <;> simp [following, separator, rawJoined]
    rw [hfollowing] at h
    rw [show rawJoined [] (node :: nodes) = node.raw ++ rawJoined [] nodes from h, ← ih]
    simp [preceding, separator]

end Texts

/-! ### Contexts -/

/-- A node with parts. -/
inductive Frame
  | Pattern
  | Alternative
  | Group (opening : JsString)
  | CapturingGroup (opening : JsString) (number : ℕ)
  | Lookaround (opening : JsString)

namespace Frame

def build : Frame → List Node → Node
  | Pattern, nodes => .Pattern nodes
  | Alternative, nodes => .Alternative nodes
  | Group opening, nodes => .Group opening nodes
  | CapturingGroup opening number, nodes => .CapturingGroup opening number nodes
  | Lookaround opening, nodes => .Lookaround opening nodes

def terms : Frame → Bool
  | Alternative => true
  | _ => false

def opening : Frame → JsString
  | Pattern | Alternative => []
  | Group opening | CapturingGroup opening _ | Lookaround opening => opening

def closing : Frame → JsString
  | Pattern | Alternative => []
  | Group _ | CapturingGroup _ _ | Lookaround _ => units ")"

def Valid (G : Grammar) (frame : Frame) : Prop := frame.opening = [] ∨ G.opening frame.opening

variable {G} (frame : Frame) (nodes : List Node) (rest : JsString)

theorem raw_build :
    (frame.build nodes).raw = frame.opening ++ rawJoined (separator frame.terms) nodes ++ frame.closing := by
  cases frame <;> simp [build, raw, opening, closing, terms, separator]

theorem isParse_build : IsParse G (frame.build nodes) rest →
    frame.Valid G ∧ PartsParse G frame.terms nodes (frame.closing ++ rest) := by
  cases frame with
  | Pattern | Alternative => exact fun h => ⟨Or.inl rfl, by simpa only [build, IsParse, terms, closing, List.nil_append] using h⟩
  | Group | CapturingGroup | Lookaround =>
    intro h
    simp only [build, IsParse] at h
    exact ⟨Or.inr h.1, h.2⟩

theorem isParse_build_of {others : List Node} {rest' : JsString} (h : IsParse G (frame.build others) rest')
    (hparts : PartsParse G frame.terms nodes (frame.closing ++ rest)) : IsParse G (frame.build nodes) rest := by
  cases frame with
  | Pattern | Alternative => simpa only [build, IsParse, terms, closing, List.nil_append] using hparts
  | Group | CapturingGroup | Lookaround =>
    simp only [build, IsParse] at h ⊢
    exact ⟨h.1, hparts⟩

theorem visits_build (parentType : String) (start : ℕ) :
    visits parentType start (frame.build nodes) = ⟨frame.build nodes, start, parentType⟩ ::
      visitsJoined (frame.build nodes).type (separator frame.terms) (start + frame.opening.length) nodes := by
  cases frame <;> simp [build, visits, opening, terms, separator]

end Frame

/-- A tree with a place for an alternative. -/
inductive Context
  | hole
  | parts (frame : Frame) (before after : List Node) (inner : Context)
  | quantifier (inner : Context) (min : ℕ) (max : Option ℕ) (greedy : Bool) (text : JsString)

namespace Context

def fill : Context → Node → Node
  | hole, node => node
  | parts frame before after inner, node => frame.build (before ++ inner.fill node :: after)
  | quantifier inner min max greedy text, node => .Quantifier (inner.fill node) min max greedy text

def left : Context → JsString
  | hole => []
  | parts frame before _ inner => frame.opening ++ preceding frame.terms before ++ inner.left
  | quantifier inner _ _ _ _ => inner.left

def right : Context → JsString
  | hole => []
  | parts frame _ after inner => inner.right ++ following frame.terms after [] ++ frame.closing
  | quantifier inner _ _ _ text => inner.right ++ text

variable {G} (C : Context) (node : Node)

theorem raw_fill : (C.fill node).raw = C.left ++ node.raw ++ C.right := by
  induction C with
  | hole => simp [fill, left, right]
  | parts frame before after inner ih => simp [fill, left, right, Frame.raw_build, rawJoined_append, ih]
  | quantifier inner min max greedy text ih => simp [fill, left, right, raw, ih]

/-- What kind of node it is does not depend on the alternative. -/
theorem kind_fill (elements elements' : List Node) :
    (C.fill (.Alternative elements)).isAlternative = (C.fill (.Alternative elements')).isAlternative ∧
      (C.fill (.Alternative elements)).isTerm = (C.fill (.Alternative elements')).isTerm ∧
      (C.fill (.Alternative elements)).isAtom = (C.fill (.Alternative elements')).isAtom := by
  cases C with
  | hole => exact ⟨rfl, rfl, rfl⟩
  | parts frame before after inner => cases frame <;> exact ⟨rfl, rfl, rfl⟩
  | quantifier inner min max greedy text => exact ⟨rfl, rfl, rfl⟩

end Context

/-! ### Runs of spaces -/

section Runs

variable {G} {n : ℕ} {before after : JsString}

theorem beginsQuantifier_run (hn : 2 ≤ n) :
    beginsQuantifier (before ++ spaces n ++ after) = beginsQuantifier (before ++ 32 :: braces n ++ after) := by
  obtain ⟨n, rfl⟩ : ∃ m, n = m + 1 := ⟨n - 1, by omega⟩
  rw [spaces_succ, List.append_assoc, List.append_assoc]
  exact beginsQuantifier_space before _ _

theorem IsPart.run {terms : Bool} {node : Node} (hn : 2 ≤ n) (h : IsPart terms node (before ++ spaces n ++ after)) :
    IsPart terms node (before ++ 32 :: braces n ++ after) := by
  unfold IsPart at h ⊢
  rwa [← beginsQuantifier_run hn]

mutual

theorem isParse_run (hn : 2 ≤ n) : ∀ node before, IsParse G node (before ++ spaces n ++ after) →
    IsParse G node (before ++ 32 :: braces n ++ after)
  | .Pattern alternatives, before, h => by
    simp only [IsParse] at h ⊢
    exact partsIsParse_run hn _ alternatives before h
  | .Alternative elements, before, h => by
    simp only [IsParse] at h ⊢
    exact partsIsParse_run hn _ elements before h
  | .Group opening alternatives, before, h | .CapturingGroup opening _ alternatives, before, h
  | .Lookaround opening alternatives, before, h => by
    simp only [IsParse] at h ⊢
    refine ⟨h.1, ?_⟩
    have := partsIsParse_run hn _ alternatives (units ")" ++ before) (by simpa using h.2)
    simpa using this
  | .Quantifier element min max greedy quantifier, before, h => by
    simp only [IsParse] at h ⊢
    refine ⟨h.1, h.2.1, ?_⟩
    have := isParse_run hn element (quantifier ++ before) (by simpa using h.2.2)
    simpa using this
  | .CharacterClassRange _ _, _, h | .ClassOperation _ _ _ _ _, _, h => by
    simp only [IsParse] at h
  | .CharacterClass _ _, before, h | .Edge _, before, h | .Character _ _, before, h | .CharacterSet _, before, h
  | .Backreference _, before, h => by
    simp only [IsParse] at h ⊢
    exact G.leaf_run _ before n after hn h

theorem partsIsParse_run (hn : 2 ≤ n) (terms : Bool) : ∀ nodes before,
    PartsParse G terms nodes (before ++ spaces n ++ after) →
      PartsParse G terms nodes (before ++ 32 :: braces n ++ after)
  | [], _, _ => by simp only [PartsParse]
  | node :: nodes, before, h => by
    simp only [PartsParse] at h ⊢
    rw [following_append] at h ⊢
    obtain ⟨hpart, hnode, hnodes⟩ := h
    have hassoc : ∀ text : JsString, following terms nodes [] ++ (before ++ text ++ after) =
        (following terms nodes [] ++ before) ++ text ++ after := fun text => by simp
    rw [hassoc] at hpart hnode ⊢
    exact ⟨hpart.run hn, isParse_run hn node _ hnode, partsIsParse_run hn terms nodes before hnodes⟩

end

variable (before after) in
/-- The parts from a place on are replaced by others. -/
theorem partsIsParse_replace (hn : 2 ≤ n) {terms : Bool} {nodes nodes' : List Node} {rest : JsString}
    (hne : nodes ≠ []) (hne' : nodes' ≠ [])
    (htext : rawJoined (separator terms) nodes ++ rest = before ++ spaces n ++ after)
    (htext' : rawJoined (separator terms) nodes' ++ rest = before ++ 32 :: braces n ++ after)
    (hnodes : PartsParse G terms nodes rest → PartsParse G terms nodes' rest) :
    ∀ first, PartsParse G terms (first ++ nodes) rest → PartsParse G terms (first ++ nodes') rest
  | [], h => hnodes h
  | node :: first, h => by
    simp only [List.cons_append, PartsParse] at h ⊢
    obtain ⟨hpart, hnode, hrest⟩ := h
    -- the text behind the part, with and without the quantifier
    have hfollowing : ∀ nodes : List Node, nodes ≠ [] → following terms (first ++ nodes) rest =
        separator terms ++ preceding terms first ++ (rawJoined (separator terms) nodes ++ rest) := by
      intro nodes hne
      obtain ⟨next, nodes, rfl⟩ := List.exists_cons_of_ne_nil hne
      have : following terms (first ++ next :: nodes) rest =
          separator terms ++ rawJoined (separator terms) (first ++ next :: nodes) ++ rest := by
        cases first <;> rfl
      rw [this, rawJoined_append, rawJoined_cons]
      simp
    rw [hfollowing nodes hne, htext] at hpart hnode
    rw [hfollowing nodes' hne', htext']
    have hassoc : ∀ text : JsString, separator terms ++ preceding terms first ++ (before ++ text ++ after) =
        (separator terms ++ preceding terms first ++ before) ++ text ++ after := fun text => by simp
    rw [hassoc] at hpart hnode ⊢
    exact ⟨hpart.run hn, isParse_run hn node _ hnode,
      partsIsParse_replace hn hne hne' htext htext' hnodes first hrest⟩

theorem partsIsParse_of_append {terms : Bool} {nodes : List Node} {rest : JsString} :
    ∀ first, PartsParse G terms (first ++ nodes) rest → PartsParse G terms nodes rest
  | [], h => h
  | node :: first, h => by
    simp only [List.cons_append, PartsParse] at h
    exact partsIsParse_of_append first h.2.2

/-- **A run in a context.** -/
theorem isParse_fill (hn : 2 ≤ n) {elements elements' : List Node}
    (htext : rawJoined [] elements = before ++ spaces n ++ after)
    (htext' : rawJoined [] elements' = before ++ 32 :: braces n ++ after) (C : Context) (rest : JsString)
    (helements : IsParse G (.Alternative elements) (C.right ++ rest) →
      IsParse G (.Alternative elements') (C.right ++ rest))
    (h : IsParse G (C.fill (.Alternative elements)) rest) : IsParse G (C.fill (.Alternative elements')) rest := by
  induction C generalizing rest with
  | hole => exact helements h
  | parts frame first later inner ih =>
    obtain ⟨-, hparts⟩ := Frame.isParse_build frame _ rest h
    refine Frame.isParse_build_of frame _ rest h ?_
    obtain ⟨hkind, hterm, -⟩ := inner.kind_fill elements elements'
    have hinner : ∀ elements : List Node, rawJoined (separator frame.terms) (inner.fill (.Alternative elements) :: later) =
        inner.left ++ rawJoined [] elements ++ (inner.right ++ following frame.terms later []) := fun elements => by
      rw [rawJoined_cons, Context.raw_fill]
      simp [raw]
    refine partsIsParse_replace (inner.left ++ before)
      (after ++ (inner.right ++ following frame.terms later []) ++ (frame.closing ++ rest)) hn
      (List.cons_ne_nil _ _) (List.cons_ne_nil _ _) ?_ ?_ (fun hnodes => ?_) first hparts
    · rw [hinner, htext]
      simp
    · rw [hinner, htext']
      simp
    · simp only [PartsParse] at hnodes ⊢
      obtain ⟨hpart, hnode, hlater⟩ := hnodes
      refine ⟨?_, ih _ (fun hwf => ?_) hnode, hlater⟩
      · unfold IsPart at hpart ⊢
        rwa [← hkind, ← hterm]
      · have hright : (Context.parts frame first later inner).right ++ rest =
            inner.right ++ following frame.terms later (frame.closing ++ rest) := by
          rw [following_append]
          simp [Context.right]
        rw [← hright] at hwf ⊢
        exact helements hwf
  | quantifier inner min max greedy text ih =>
    simp only [Context.fill, IsParse] at h ⊢
    obtain ⟨-, -, hatom⟩ := inner.kind_fill elements elements'
    refine ⟨h.1, hatom ▸ h.2.1, ih _ (fun hwf => ?_) h.2.2⟩
    have hright : (Context.quantifier inner min max greedy text).right ++ rest = inner.right ++ (text ++ rest) := by
      simp [Context.right]
    rw [← hright] at hwf ⊢
    exact helements hwf

end Runs

/-! ### Visits -/

section Visits

variable {G} {visit : Visit}

/-- The node is in an alternative of the tree. -/
def InAlternative (visit : Visit) (start : ℕ) (node : Node) : Prop :=
  ∃ (C : Context) (before after : List Node), node = C.fill (.Alternative (before ++ visit.node :: after)) ∧
    visit.start = start + C.left.length + (rawJoined [] before).length

theorem InAlternative.parts {frame : Frame} {before after : List Node} {node : Node} {start : ℕ}
    (h : InAlternative visit (start + frame.opening.length + (preceding frame.terms before).length) node) :
    InAlternative visit start (frame.build (before ++ node :: after)) := by
  obtain ⟨C, first, later, rfl, hstart⟩ := h
  refine ⟨.parts frame before after C, first, later, rfl, ?_⟩
  rw [hstart, Context.left, List.length_append, List.length_append]
  omega

/-- A part of a node is visited in an alternative when the node is one, or in a context. -/
theorem inAlternative_build (frame : Frame) {nodes : List Node} {start : ℕ}
    (h : ∃ before node after, nodes = before ++ node :: after ∧
      (visit = ⟨node, start + frame.opening.length + (preceding frame.terms before).length, (frame.build nodes).type⟩ ∨
        InAlternative visit (start + frame.opening.length + (preceding frame.terms before).length) node))
    (htype : visit.parentType = "Alternative") : InAlternative visit start (frame.build nodes) := by
  obtain ⟨before, node, after, rfl, rfl | hin⟩ := h
  · cases frame with
    | Alternative => exact ⟨.hole, before, after, rfl, by simp [Frame.opening, Frame.terms, preceding_true, Context.left]⟩
    | Pattern | Group | CapturingGroup | Lookaround => simp [Frame.build, Node.type] at htype
  · exact hin.parts

mutual

theorem inAlternative_of_visit : ∀ (node : Node) (parentType : String) (start : ℕ) (rest : JsString),
    IsParse G node rest → visit ∈ visits parentType start node → visit.parentType = "Alternative" →
      visit = ⟨node, start, parentType⟩ ∨ InAlternative visit start node
  | .Pattern alternatives, parentType, start, rest, h, hmem, htype => by
    simp only [IsParse] at h
    rcases List.mem_cons.mp (Frame.visits_build .Pattern alternatives parentType start ▸ hmem) with rfl | hmem
    · exact Or.inl rfl
    · exact Or.inr (inAlternative_build .Pattern
        (inAlternative_of_visitJoined alternatives false _ _ _ h hmem htype) htype)
  | .Alternative elements, parentType, start, rest, h, hmem, htype => by
    simp only [IsParse] at h
    rcases List.mem_cons.mp (Frame.visits_build .Alternative elements parentType start ▸ hmem) with rfl | hmem
    · exact Or.inl rfl
    · exact Or.inr (inAlternative_build .Alternative
        (inAlternative_of_visitJoined elements true _ _ _ h hmem htype) htype)
  | .Group opening alternatives, parentType, start, rest, h, hmem, htype => by
    simp only [IsParse] at h
    rcases List.mem_cons.mp (Frame.visits_build (.Group opening) alternatives parentType start ▸ hmem) with rfl | hmem
    · exact Or.inl rfl
    · exact Or.inr (inAlternative_build (.Group opening)
        (inAlternative_of_visitJoined alternatives false _ _ _ h.2 hmem htype) htype)
  | .CapturingGroup opening number alternatives, parentType, start, rest, h, hmem, htype => by
    simp only [IsParse] at h
    rcases List.mem_cons.mp (Frame.visits_build (.CapturingGroup opening number) alternatives parentType start ▸ hmem)
      with rfl | hmem
    · exact Or.inl rfl
    · exact Or.inr (inAlternative_build (.CapturingGroup opening number)
        (inAlternative_of_visitJoined alternatives false _ _ _ h.2 hmem htype) htype)
  | .Lookaround opening alternatives, parentType, start, rest, h, hmem, htype => by
    simp only [IsParse] at h
    rcases List.mem_cons.mp (Frame.visits_build (.Lookaround opening) alternatives parentType start ▸ hmem)
      with rfl | hmem
    · exact Or.inl rfl
    · exact Or.inr (inAlternative_build (.Lookaround opening)
        (inAlternative_of_visitJoined alternatives false _ _ _ h.2 hmem htype) htype)
  | .Quantifier element min max greedy quantifier, parentType, start, rest, h, hmem, htype => by
    simp only [IsParse] at h
    rw [visits] at hmem
    rcases List.mem_cons.mp hmem with rfl | hmem
    · exact Or.inl rfl
    · rcases inAlternative_of_visit element _ _ _ h.2.2 hmem htype with rfl | ⟨C, before, after, rfl, hstart⟩
      · simp [Node.type] at htype
      · exact Or.inr ⟨.quantifier C min max greedy quantifier, before, after, rfl, hstart⟩
  | .CharacterClass opening elements, parentType, start, rest, h, hmem, htype => by
    simp only [IsParse] at h
    rw [visits] at hmem
    rcases List.mem_cons.mp hmem with rfl | hmem
    · exact Or.inl rfl
    · exact absurd htype (G.leaf_class opening elements rest h _ visit hmem)
  | .CharacterClassRange _ _, _, _, _, h, _, _ | .ClassOperation _ _ _ _ _, _, _, _, h, _, _ => by
    simp only [IsParse] at h
  | .Edge _, _, _, _, _, hmem, _ | .Character _ _, _, _, _, _, hmem, _ | .CharacterSet _, _, _, _, _, hmem, _
  | .Backreference _, _, _, _, _, hmem, _ => by
    rw [visits, List.mem_singleton] at hmem
    exact Or.inl hmem

theorem inAlternative_of_visitJoined : ∀ (nodes : List Node) (terms : Bool) (parentType : String) (start : ℕ)
    (rest : JsString), PartsParse G terms nodes rest →
      visit ∈ visitsJoined parentType (separator terms) start nodes → visit.parentType = "Alternative" →
      ∃ before node after, nodes = before ++ node :: after ∧
        (visit = ⟨node, start + (preceding terms before).length, parentType⟩ ∨
          InAlternative visit (start + (preceding terms before).length) node)
  | [], _, _, _, _, _, hmem, _ => by
    rw [visitsJoined] at hmem
    cases hmem
  | node :: nodes, terms, parentType, start, rest, h, hmem, htype => by
    simp only [PartsParse] at h
    rw [visitsJoined] at hmem
    rcases List.mem_append.mp hmem with hmem | hmem
    · exact ⟨[], node, nodes, rfl, inAlternative_of_visit node _ _ _ h.2.1 hmem htype⟩
    · obtain ⟨before, node', after, rfl, hin⟩ := inAlternative_of_visitJoined nodes terms _ _ _ h.2.2 hmem htype
      refine ⟨node :: before, node', after, rfl, ?_⟩
      have hlength : start + (preceding terms (node :: before)).length =
          start + node.raw.length + (separator terms).length + (preceding terms before).length := by
        simp [preceding]
        omega
      rwa [hlength]

end

end Visits

/-! ### Spaces before a node -/

section Spaces

variable {G} {rest text : JsString}

def trailingSpaces (text : JsString) : ℕ := (text.reverse.takeWhile (· == 32)).length

theorem trailingSpaces_space : trailingSpaces (text ++ [32]) = trailingSpaces text + 1 := by
  simp [trailingSpaces]

theorem trailingSpaces_of_getLast? (h : text.getLast? ≠ some 32) : trailingSpaces text = 0 := by
  rcases List.eq_nil_or_concat text with rfl | ⟨init, last, rfl⟩
  · rfl
  · have hlast : last ≠ 32 := by simpa using h
    simp [trailingSpaces, hlast]

theorem trailingSpaces_spaces (h : text.getLast? ≠ some 32) (n : ℕ) : trailingSpaces (text ++ spaces n) = n := by
  induction n with
  | zero => simpa [spaces] using trailingSpaces_of_getLast? h
  | succ n ih =>
    rw [spaces, List.replicate_succ', ← List.append_assoc, trailingSpaces_space]
    exact congrArg (· + 1) ih

theorem term_ends {node : Node} (h : IsParse G node rest) (hterm : node.isTerm = true) :
    node.raw ≠ [] ∧ (node.raw.getLast? = some 32 →
      ∃ escape, node = .Character (escape ++ [32]) 32 ∧ escape.getLast? ≠ some 32) := by
  cases node with
  | Pattern | Alternative | CharacterClassRange | ClassOperation => cases hterm
  | Group | CapturingGroup | Lookaround =>
    have hclose : units ")" = [41] := by decide
    simp [raw, hclose]
  | Quantifier element min max greedy quantifier =>
    simp only [IsParse] at h
    obtain ⟨hne, hlast⟩ := G.quantifier_ends _ _ _ _ h.1
    rw [raw]
    refine ⟨by simp [hne], fun hspace => ?_⟩
    rw [List.getLast?_append_of_ne_nil _ hne] at hspace
    exact absurd hspace hlast
  | Edge | Character | CharacterSet | CharacterClass | Backreference =>
    simp only [IsParse] at h
    exact G.leaf_ends _ rest h

theorem isParse_of_fill {node : Node} : ∀ (C : Context) (rest : JsString),
    IsParse G (C.fill node) rest → IsParse G node (C.right ++ rest)
  | .hole, _, h => h
  | .quantifier inner min max greedy quantifier, rest, h => by
    simp only [Context.fill, IsParse] at h
    simpa [Context.right] using isParse_of_fill inner _ h.2.2
  | .parts frame before after inner, rest, h => by
    have hparts := partsIsParse_of_append before (Frame.isParse_build frame _ rest h).2
    simp only [PartsParse] at hparts
    have hinner := isParse_of_fill inner _ hparts.2.1
    rw [following_append] at hinner
    simpa [Context.right] using hinner

theorem left_ne_nil {elements : List Node} : ∀ (C : Context) (rest : JsString),
    IsParse G (C.fill (.Alternative elements)) rest → (C.fill (.Alternative elements)).isTerm = true → C.left ≠ []
  | .hole, _, _, hterm => by cases hterm
  | .parts frame before after inner, rest, h, hterm => by
    cases frame with
    | Pattern | Alternative => cases hterm
    | Group opening | CapturingGroup opening | Lookaround opening =>
      simp only [Context.fill, Frame.build, IsParse] at h
      have hne := (G.opening_ends opening h.1).1
      simp [Context.left, Frame.opening, hne]
  | .quantifier inner min max greedy quantifier, rest, h, hterm => by
    simp only [Context.fill, IsParse] at h
    refine left_ne_nil inner _ h.2.2 ?_
    obtain ⟨-, hatom, -⟩ := h
    revert hatom
    cases inner.fill (.Alternative elements) <;> simp [isAtom, isTerm]

theorem left_ends {elements : List Node} : ∀ (C : Context) (rest : JsString),
    IsParse G (C.fill (.Alternative elements)) rest → C.left.getLast? ≠ some 32
  | .hole, _, _ => by simp [Context.left]
  | .quantifier inner min max greedy quantifier, rest, h => by
    simp only [Context.fill, IsParse] at h
    exact left_ends inner _ h.2.2
  | .parts frame before after inner, rest, h => by
    obtain ⟨hvalid, hparts⟩ := Frame.isParse_build frame _ rest h
    have hinner := partsIsParse_of_append before hparts
    simp only [PartsParse] at hinner
    obtain ⟨hpart, hwf, -⟩ := hinner
    by_cases hleft : inner.left = []
    · -- the alternative is a part itself, behind a bar or what opens the group
      have hterms : frame.terms = false := by
        by_contra hterms
        rw [Bool.not_eq_false] at hterms
        rw [IsPart, if_pos hterms] at hpart
        exact left_ne_nil inner _ hwf hpart.1 hleft
      rw [Context.left, hleft, List.append_nil, hterms]
      rcases List.eq_nil_or_concat before with rfl | ⟨init, last, rfl⟩
      · rw [preceding, List.flatMap_nil, List.append_nil]
        rcases hvalid with hnil | hopening
        · simp [hnil]
        · exact (G.opening_ends _ hopening).2
      · have hbar : separator false = [124] := by decide
        simp [preceding, hbar]
    · rw [Context.left, List.getLast?_append_of_ne_nil _ hleft]
      exact left_ends inner _ hwf

/-- The spaces before a node in an alternative are characters of the alternative, the first one perhaps escaped. -/
theorem exists_run {before more : List Node} (h : PartsParse G true (before ++ more) rest)
    (htext : text.getLast? ≠ some 32) (hpos : 0 < trailingSpaces (text ++ rawJoined [] before)) :
    ∃ first escape, before = first ++ .Character (escape ++ [32]) 32 ::
      List.replicate (trailingSpaces (text ++ rawJoined [] before) - 1) (.Character [32] 32) := by
  induction before using List.reverseRecOn generalizing more with
  | nil =>
    rw [rawJoined, List.append_nil, trailingSpaces_of_getLast? htext] at hpos
    exact absurd hpos (Nat.lt_irrefl 0)
  | append_singleton init last ih =>
    rw [List.append_assoc] at h
    have hlast := partsIsParse_of_append init h
    simp only [List.singleton_append, PartsParse] at hlast
    obtain ⟨hpart, hwf, -⟩ := hlast
    have hraw : rawJoined [] (init ++ [last]) = rawJoined [] init ++ last.raw := by
      rw [← preceding_true, ← preceding_true, preceding, List.flatMap_append]
      simp [preceding, separator]
    obtain ⟨hne, hends⟩ := term_ends hwf hpart.1
    rw [hraw, ← List.append_assoc] at hpos ⊢
    by_cases hspace : last.raw.getLast? = some 32
    · obtain ⟨escape, rfl, hescape⟩ := hends hspace
      rw [raw, ← List.append_assoc, trailingSpaces_space] at hpos ⊢
      rw [Nat.add_sub_cancel]
      by_cases hzero : trailingSpaces (text ++ rawJoined [] init ++ escape) = 0
      · exact ⟨init, escape, by rw [hzero, List.replicate_zero]⟩
      · have hnil : escape = [] := by
          by_contra hne
          refine hzero (trailingSpaces_of_getLast? ?_)
          rwa [List.getLast?_append_of_ne_nil _ hne]
        subst hnil
        rw [List.append_nil] at hzero ⊢
        obtain ⟨first, escape, hinit⟩ := ih h (Nat.pos_of_ne_zero hzero)
        obtain ⟨m, hm⟩ := Nat.exists_eq_succ_of_ne_zero hzero
        refine ⟨first, escape, ?_⟩
        rw [hm] at hinit ⊢
        rw [hinit, Nat.succ_sub_one, Nat.succ_eq_add_one, List.replicate_succ']
        simp
    · rw [trailingSpaces_of_getLast? (by rwa [List.getLast?_append_of_ne_nil _ hne])] at hpos
      exact absurd hpos (Nat.lt_irrefl 0)

/-- A run of at least two spaces, as one space with a quantifier. -/
theorem parts_quantified {escape : JsString} {m : ℕ} {later : List Node}
    (h : PartsParse G true (.Character (escape ++ [32]) 32 ::
      (List.replicate (m + 1) (.Character [32] 32) ++ later)) rest) :
    PartsParse G true (.Quantifier (.Character (escape ++ [32]) 32) (m + 2) (some (m + 2)) true (braces (m + 2)) ::
      later) rest := by
  simp only [PartsParse, IsParse] at h
  obtain ⟨-, hleaf, hspaces⟩ := h
  rw [List.replicate_succ', List.append_assoc] at hspaces
  have hlast := partsIsParse_of_append _ hspaces
  simp only [List.singleton_append, PartsParse] at hlast
  obtain ⟨hpart, -, hlater⟩ := hlast
  simp only [PartsParse, IsParse]
  refine ⟨?_, ⟨G.quantifier_braces _, rfl, G.leaf_space _ _ _ hleaf⟩, hlater⟩
  rw [IsPart, if_pos rfl] at hpart ⊢
  exact ⟨rfl, hpart.2⟩

theorem rawJoined_run (escape : JsString) (m : ℕ) (first later : List Node) :
    rawJoined [] (first ++ .Character (escape ++ [32]) 32 :: (List.replicate m (.Character [32] 32) ++ later)) =
      rawJoined [] first ++ escape ++ spaces (m + 1) ++ rawJoined [] later := by
  simp only [← preceding_true, preceding, List.flatMap_append, List.flatMap_cons, List.flatMap_replicate]
  simp [separator, raw, spaces, List.replicate_succ]

theorem rawJoined_quantified (escape : JsString) (m : ℕ) (first later : List Node) :
    rawJoined [] (first ++ .Quantifier (.Character (escape ++ [32]) 32) m (some m) true (braces m) :: later) =
      rawJoined [] first ++ escape ++ 32 :: braces m ++ rawJoined [] later := by
  simp only [← preceding_true, preceding, List.flatMap_append, List.flatMap_cons]
  simp [separator, raw]

end Spaces

end SonarJavascript.Regex
