import Mathlib.Data.Set.Card
import SonarJavascript.Regex.Extract

/-!
# The parts of regular expressions

S5843 collects the nodes that are or build a regular expression, and a finder follows each to the literals it is made of.
The finder ends for each node of each program, as it follows an identifier once. A literal is found as often as it is led
to: from each collected node, and from the initializer of each identifier that can be reached from it
(`parts_found`). A literal in `RegExp(/x*/)` is found twice (`literal_found_twice`).
-/

namespace SonarJavascript.Rules.RegexParts

open Helpers (getVariableFromScope getUniqueWriteReference)
open Regex.Extract (isRegExpConstructor isStaticTemplateLiteral)
open Unfolding (Calls)

/-! ### Programs -/

variable {Node : Type}

/-- The operands that the finder follows. -/
def operands (program : Regex.Extract.Program Node) (node : Node) : List Node :=
  match isRegExpConstructor program node with
  | some (argument, _) => [argument]
  | none =>
    match program.syntaxOf node with
    | .BinaryExpression operator left right => if operator = "+" then [left, right] else []
    | _ => []

/-- A program with what is read of it: the nodes in the order in which they are left. -/
structure File (Node : Type) [DecidableEq Node] extends Regex.Extract.Program Node where
  /-- If there is type information. -/
  isString : Option (Node → Bool)
  /-- The value of a literal is a regular expression. -/
  isRegExp : Node → Bool
  complexity : Node → ℕ
  exits : List Node
  mem_exits : ∀ node, node ∈ exits
  nodup_exits : exits.Nodup
  operand_before : ∀ node, ∀ operand ∈ operands toProgram node, exits.idxOf operand < exits.idxOf node
  parent_operand : ∀ node, ∀ operand ∈ operands toProgram node, parent operand = some node
  nodup_operands : ∀ node, (operands toProgram node).Nodup

variable [DecidableEq Node] (file : File Node)

/-! ### The finder -/

inductive Form (Node : Type)
  | RegExpConstructor (argument : Node)
  | RegexLiteral
  | StringLiteral
  | StaticTemplateLiteral
  | Identifier (initializer : Option Node)
  | BinaryPlus (left right : Node)
  | other

def formOf (node : Node) : Form Node :=
  match isRegExpConstructor file.toProgram node with
  | some (argument, _) => .RegExpConstructor argument
  | none =>
    match file.syntaxOf node with
    | .RegExpLiteral _ _ => if file.isRegExp node then .RegexLiteral else .other
    | .StringLiteral _ => .StringLiteral
    | .TemplateLiteral quasis expressions =>
      if (isStaticTemplateLiteral quasis expressions).isSome then .StaticTemplateLiteral else .other
    | .Identifier name => .Identifier (getUniqueWriteReference (getVariableFromScope (file.getScope node) name))
    | .BinaryExpression operator left right => if operator = "+" then .BinaryPlus left right else .other
    | _ => .other

structure RegexPartFinder (Node : Type) where
  parts : List (List Node) := []
  handledIdentifiers : List Node := []

mutual

/-- There is no result when the fuel does not suffice. -/
def find : ℕ → Node → RegexPartFinder Node → Option (RegexPartFinder Node)
  | 0, _, _ => none
  | fuel + 1, node, finder =>
    match formOf file node with
    | .RegExpConstructor argument => find fuel argument finder
    | .RegexLiteral | .StringLiteral | .StaticTemplateLiteral =>
      some { finder with parts := finder.parts ++ [[node]] }
    | .Identifier initializer =>
      if node ∈ finder.handledIdentifiers then some finder
      else
        let finder := { finder with handledIdentifiers := finder.handledIdentifiers ++ [node] }
        match initializer with
        | some initializer => find fuel initializer finder
        | none => some finder
    | .BinaryPlus left right =>
      (findInStringConcatenation fuel left ([], finder)).bind fun found =>
        (findInStringConcatenation fuel right found).map fun (literals, finder) =>
          if literals.length > 0 then { finder with parts := finder.parts ++ [literals] } else finder
    | .other => some finder

def findInStringConcatenation : ℕ → Node → List Node × RegexPartFinder Node →
    Option (List Node × RegexPartFinder Node)
  | 0, _, _ => none
  | fuel + 1, node, (literals, finder) =>
    match formOf file node with
    | .StringLiteral => some (literals ++ [node], finder)
    | .BinaryPlus left right =>
      (findInStringConcatenation fuel left (literals, finder)).bind fun found =>
        findInStringConcatenation fuel right found
    | _ => (find fuel node finder).map fun finder => (literals, finder)

end

def findRegexParts (fuel : ℕ) (node : Node) : Option (List (List Node)) :=
  (find file fuel node {}).map RegexPartFinder.parts

/-! ### The rule -/

def isStringRegexMethodCall (isString : Node → Bool) (node : Node) : Option Node :=
  match file.syntaxOf node with
  | .CallExpression callee (argument :: _) =>
    match file.syntaxOf callee with
    | .MemberExpression object property false =>
      match file.syntaxOf property with
      | .Identifier name =>
        if name ∈ ["match", "matchAll", "search"] ∧ isString object ∧ isString argument then some argument else none
      | _ => none
    | _ => none
  | _ => none

/-- What a node that is left adds to the collected ones. -/
def collect (node : Node) : Option Node :=
  match file.syntaxOf node with
  | .RegExpLiteral _ _ => some node
  | .NewExpression _ _ => if (isRegExpConstructor file.toProgram node).isSome then some node else none
  | .CallExpression _ _ =>
    match file.isString.bind fun isString => isStringRegexMethodCall file isString node with
    | some argument => some argument
    | none => if (isRegExpConstructor file.toProgram node).isSome then some node else none
  | _ => none

def regexNodes : List Node := file.exits.filterMap (collect file)

/-- The groups of the whole file. -/
def groups (fuel : ℕ) : Option (List (List Node)) :=
  ((regexNodes file).mapM (findRegexParts file fuel)).map List.flatten

structure Report (Node : Type) where
  message : String
  node : Option Node
  cost : ℤ

def messageOf (complexity : ℕ) (threshold : ℤ) : String :=
  "Simplify this regular expression to reduce its complexity from " ++ toString complexity ++ " to the " ++
    toString threshold ++ " allowed."

def checkRegexComplexity (threshold : ℤ) (regexParts : List Node) : Option (Report Node) :=
  let complexity := (regexParts.map file.complexity).sum
  if complexity > threshold then
    some ⟨messageOf complexity threshold, regexParts.head?, complexity - threshold⟩
  else none

def reports (threshold : ℤ) (fuel : ℕ) : Option (List (Report Node)) :=
  (groups file fuel).map fun groups => groups.filterMap (checkRegexComplexity file threshold)

/-! ### What leads to a literal -/

def IsPart (node : Node) : Prop :=
  formOf file node = .RegexLiteral ∨ formOf file node = .StringLiteral ∨ formOf file node = .StaticTemplateLiteral

/-- Through arguments of constructors and operands of concatenations. -/
def Leads (node other : Node) : Prop := Relation.ReflTransGen (Calls (operands file.toProgram)) node other

def Initializes (identifier initializer : Node) : Prop := formOf file identifier = .Identifier (some initializer)

/-- Through initializers, too. -/
def Reaches (node other : Node) : Prop :=
  Relation.ReflTransGen (fun a b => b ∈ operands file.toProgram a ∨ Initializes file a b) node other

/-- What leads to a literal is a collected node itself, or an identifier that can be reached from it. -/
def LeadsFrom (node : Node) (literal : Node) : Option Node → Prop
  | none => Leads file node literal
  | some identifier => Reaches file node identifier ∧ ∃ initializer, Initializes file identifier initializer ∧
      Leads file initializer literal

/-- For each of the collected nodes by its index. -/
def entries (literal : Node) : Set (ℕ × Option Node) :=
  {entry | ∃ node, (regexNodes file)[entry.1]? = some node ∧ LeadsFrom file node literal entry.2}

/-! ### Trees -/

section Trees

variable {file} {node other a b literal : Node}

theorem operands_eq (file : File Node) (node : Node) : operands file.toProgram node = match formOf file node with
    | .RegExpConstructor argument => [argument]
    | .BinaryPlus left right => [left, right]
    | _ => [] := by
  unfold operands formOf
  cases isRegExpConstructor file.toProgram node with
  | some found => rfl
  | none =>
    cases file.syntaxOf node with
    | BinaryExpression operator left right => dsimp only; split_ifs <;> rfl
    | RegExpLiteral => dsimp only; split_ifs <;> rfl
    | TemplateLiteral => dsimp only; split_ifs <;> rfl
    | _ => rfl

theorem leads_iff : Leads file node other ↔ other = node ∨ ∃ a ∈ operands file.toProgram node, Leads file a other := by
  rw [Leads, Relation.ReflTransGen.cases_head_iff, eq_comm]
  rfl

theorem leads_iff_eq (h : operands file.toProgram node = []) : Leads file node other ↔ other = node := by
  rw [leads_iff, h]
  exact or_iff_left fun ⟨_, hmem, _⟩ => List.not_mem_nil hmem

theorem Leads.idxOf_le (h : Leads file node other) : file.exits.idxOf other ≤ file.exits.idxOf node := by
  induction h with
  | refl => exact le_rfl
  | tail _ hstep ih => exact (file.operand_before _ _ hstep).le.trans ih

theorem Leads.comparable (ha : Leads file a literal) (hb : Leads file b literal) : Leads file a b ∨ Leads file b a := by
  have hunique : Relator.RightUnique (Function.swap (Calls (operands file.toProgram))) := by
    intro operand parent parent' h h'
    exact Option.some_inj.mp ((file.parent_operand _ _ h).symm.trans (file.parent_operand _ _ h'))
  have htotal := Relation.ReflTransGen.total_of_right_unique hunique (Relation.reflTransGen_swap.mpr ha)
    (Relation.reflTransGen_swap.mpr hb)
  exact htotal.symm.imp Relation.reflTransGen_swap.mp Relation.reflTransGen_swap.mp

theorem not_leads_operand (ha : a ∈ operands file.toProgram node) (hb : b ∈ operands file.toProgram node) (hne : a ≠ b) :
    ¬ Leads file a b := by
  intro h
  rcases Relation.ReflTransGen.cases_tail h with heq | ⟨parent, hlead, hstep⟩
  · exact hne heq.symm
  · obtain rfl : parent = node := Option.some_inj.mp ((file.parent_operand _ _ hstep).symm.trans
      (file.parent_operand _ _ hb))
    exact absurd (Leads.idxOf_le hlead) (Nat.not_le.mpr (file.operand_before _ _ ha))

theorem not_leads_both (ha : a ∈ operands file.toProgram node) (hb : b ∈ operands file.toProgram node) (hne : a ≠ b) :
    ¬ (Leads file a literal ∧ Leads file b literal) := by
  rintro ⟨hla, hlb⟩
  rcases hla.comparable hlb with h | h
  · exact not_leads_operand ha hb hne h
  · exact not_leads_operand hb ha hne.symm h

theorem reaches_of_operand (h : a ∈ operands file.toProgram node) (hreaches : Reaches file a other) :
    Reaches file node other :=
  .head (Or.inl h) hreaches

end Trees

/-! ### One search -/

section Search

def initializerOf (node : Node) : Option Node :=
  match formOf file node with
  | .Identifier initializer => initializer
  | _ => none

open scoped Classical in
noncomputable def leadsTo (literal node : Node) : Bool := decide (Leads file node literal)

/-- What a search from the roots has done: the identifiers that it has handled, and the literals that it has found. -/
structure Outcome (handled roots new pushed : List Node) : Prop where
  nodup : new.Nodup
  fresh : ∀ identifier ∈ new, identifier ∉ handled
  reached : ∀ identifier ∈ new, (∃ initializer, formOf file identifier = .Identifier initializer) ∧
    ∃ root ∈ roots, Reaches file root identifier
  closed : ∀ a ∈ roots ++ new.filterMap (initializerOf file), ∀ identifier initializer, Leads file a identifier →
    formOf file identifier = .Identifier initializer → identifier ∈ handled ++ new
  parts : ∀ literal ∈ pushed, IsPart file literal
  count : ∀ literal, IsPart file literal →
    pushed.count literal = (roots ++ new.filterMap (initializerOf file)).countP (leadsTo file literal)

variable {file} {handled roots roots' new new' pushed pushed' : List Node} {node : Node}

theorem IsPart.operands_eq (h : IsPart file node) : operands file.toProgram node = [] := by
  rw [RegexParts.operands_eq]
  rcases h with h | h | h <;> rw [h]

theorem IsPart.not_identifier (h : IsPart file node) (initializer : Option Node) :
    formOf file node ≠ .Identifier initializer := by
  rcases h with h | h | h <;> rw [h] <;> exact nofun

theorem leadsTo_eq_true {literal : Node} : leadsTo file literal node = true ↔ Leads file node literal := by
  unfold leadsTo
  exact @decide_eq_true_iff _ (Classical.propDecidable _)

theorem Outcome.append (h : Outcome file handled roots new pushed) (h' : Outcome file (handled ++ new) roots' new' pushed') :
    Outcome file handled (roots ++ roots') (new ++ new') (pushed ++ pushed') where
  nodup := h.nodup.append h'.nodup fun identifier hnew hnew' => h'.fresh identifier hnew' (List.mem_append_right _ hnew)
  fresh identifier hmem := by
    rcases List.mem_append.mp hmem with hmem | hmem
    · exact h.fresh identifier hmem
    · exact fun hhandled => h'.fresh identifier hmem (List.mem_append_left _ hhandled)
  reached identifier hmem := by
    rcases List.mem_append.mp hmem with hmem | hmem
    · obtain ⟨hform, root, hroot, hreaches⟩ := h.reached identifier hmem
      exact ⟨hform, root, List.mem_append_left _ hroot, hreaches⟩
    · obtain ⟨hform, root, hroot, hreaches⟩ := h'.reached identifier hmem
      exact ⟨hform, root, List.mem_append_right _ hroot, hreaches⟩
  closed a ha identifier initializer hleads hform := by
    rw [← List.append_assoc]
    have hcases : a ∈ roots ++ new.filterMap (initializerOf file) ∨ a ∈ roots' ++ new'.filterMap (initializerOf file) := by
      simp only [List.filterMap_append, List.mem_append] at ha ⊢
      tauto
    rcases hcases with ha | ha
    · exact List.mem_append_left _ (h.closed a ha identifier initializer hleads hform)
    · exact h'.closed a ha identifier initializer hleads hform
  parts literal hmem := (List.mem_append.mp hmem).elim (h.parts literal) (h'.parts literal)
  count literal hpart := by
    have hcount := h.count literal hpart
    have hcount' := h'.count literal hpart
    simp only [List.count_append, List.filterMap_append, List.countP_append] at hcount hcount' ⊢
    omega

theorem Outcome.nil : Outcome file handled [] [] [] := ⟨List.nodup_nil, nofun, nofun, nofun, nofun, fun _ _ => rfl⟩

theorem Outcome.part (h : IsPart file node) : Outcome file handled [node] [] [node] where
  nodup := List.nodup_nil
  fresh := nofun
  reached := nofun
  closed a ha identifier initializer hleads hform := by
    obtain rfl := List.mem_singleton.mp ha
    obtain rfl := (leads_iff_eq h.operands_eq).mp hleads
    exact absurd hform (h.not_identifier initializer)
  parts literal hmem := List.mem_singleton.mp hmem ▸ h
  count literal _ := by
    rw [List.count_singleton, List.filterMap_nil, List.append_nil, List.countP_singleton]
    have hleads : (node == literal) = leadsTo file literal node := by
      rw [Bool.eq_iff_iff, beq_iff_eq, leadsTo_eq_true, leads_iff_eq h.operands_eq, eq_comm]
    rw [hleads]

theorem countP_eq_zero (hoperands : operands file.toProgram node = []) (hpart : ¬ IsPart file node) {literal : Node}
    (h : IsPart file literal) : [node].countP (leadsTo file literal) = 0 := by
  rw [List.countP_eq_zero]
  intro a ha hleads
  obtain rfl := List.mem_singleton.mp ha
  rw [leadsTo_eq_true, leads_iff_eq hoperands] at hleads
  exact hpart (hleads ▸ h)

theorem countP_operands (hpart : ¬ IsPart file node) {literal : Node} (h : IsPart file literal) :
    (operands file.toProgram node).countP (leadsTo file literal) = [node].countP (leadsTo file literal) := by
  by_cases hleads : Leads file node literal
  · rw [List.countP_singleton, if_pos (leadsTo_eq_true.mpr hleads)]
    rcases leads_iff.mp hleads with rfl | ⟨operand, hoperand, hleads⟩
    · exact absurd h hpart
    · have hfilter : (operands file.toProgram node).filter (leadsTo file literal) = [operand] := by
        refine List.perm_singleton.mp ((List.perm_ext_iff_of_nodup ((file.nodup_operands node).filter _)
          (List.nodup_singleton operand)).mpr fun a => ?_)
        rw [List.mem_filter, leadsTo_eq_true, List.mem_singleton]
        constructor
        · rintro ⟨ha, hleads'⟩
          by_contra hne
          exact not_leads_both ha hoperand hne ⟨hleads', hleads⟩
        · rintro rfl
          exact ⟨hoperand, hleads⟩
      rw [List.countP_eq_length_filter, hfilter]
      rfl
  · rw [List.countP_singleton, if_neg (fun htrue => hleads (leadsTo_eq_true.mp htrue)), List.countP_eq_zero]
    intro a ha htrue
    exact hleads (leads_iff.mpr (Or.inr ⟨a, ha, leadsTo_eq_true.mp htrue⟩))

theorem Outcome.other (hoperands : operands file.toProgram node = []) (hpart : ¬ IsPart file node)
    (hidentifier : ∀ initializer, formOf file node = .Identifier initializer → node ∈ handled) :
    Outcome file handled [node] [] [] where
  nodup := List.nodup_nil
  fresh := nofun
  reached := nofun
  closed a ha identifier initializer hleads hform := by
    obtain rfl := List.mem_singleton.mp ha
    obtain rfl := (leads_iff_eq hoperands).mp hleads
    exact List.mem_append_left _ (hidentifier initializer hform)
  parts := nofun
  count literal h := by
    rw [List.filterMap_nil, List.append_nil, countP_eq_zero hoperands hpart h]
    rfl

variable {initializer : Option Node}

theorem operands_identifier (h : formOf file node = .Identifier initializer) : operands file.toProgram node = [] := by
  rw [operands_eq, h]

theorem not_isPart_identifier (h : formOf file node = .Identifier initializer) : ¬ IsPart file node := by
  rintro (hform | hform | hform) <;> rw [h] at hform <;> exact nomatch hform

theorem initializerOf_identifier (h : formOf file node = .Identifier initializer) :
    initializerOf file node = initializer := by
  rw [initializerOf, h]

/-- An identifier is handled before its initializer is searched. -/
theorem Outcome.identifier (hform : formOf file node = .Identifier initializer) (hfresh : node ∉ handled)
    (h : Outcome file (handled ++ [node]) initializer.toList new pushed) :
    Outcome file handled [node] (node :: new) pushed where
  nodup := List.nodup_cons.mpr ⟨fun hmem => h.fresh node hmem (List.mem_append_right _ (List.mem_singleton_self node)),
    h.nodup⟩
  fresh identifier hmem := by
    rcases List.mem_cons.mp hmem with rfl | hmem
    · exact hfresh
    · exact fun hhandled => h.fresh identifier hmem (List.mem_append_left _ hhandled)
  reached identifier hmem := by
    rcases List.mem_cons.mp hmem with rfl | hmem
    · exact ⟨⟨initializer, hform⟩, identifier, List.mem_singleton_self _, .refl⟩
    · obtain ⟨hidentifier, root, hroot, hreaches⟩ := h.reached identifier hmem
      rw [Option.mem_toList] at hroot
      rw [hroot] at hform
      exact ⟨hidentifier, node, List.mem_singleton_self _, .head (Or.inr hform) hreaches⟩
  closed a ha identifier initializer' hleads hform' := by
    rw [List.filterMap_cons, initializerOf_identifier hform, List.singleton_append, List.mem_cons] at ha
    rw [← List.singleton_append, ← List.append_assoc]
    rcases ha with rfl | ha
    · obtain rfl := (leads_iff_eq (operands_identifier hform)).mp hleads
      exact List.mem_append_left _ (List.mem_append_right _ (List.mem_singleton_self identifier))
    · refine h.closed a ?_ identifier initializer' hleads hform'
      cases initializer with
      | none => exact ha
      | some initializer => exact ha
  parts := h.parts
  count literal hpart := by
    rw [h.count literal hpart, List.filterMap_cons, initializerOf_identifier hform, List.countP_append,
      List.countP_append, countP_eq_zero (operands_identifier hform) (not_isPart_identifier hform) hpart]
    cases initializer with
    | none => simp
    | some initializer => simp [List.countP_cons]; omega

theorem Outcome.operands (hpart : ¬ IsPart file node) (hidentifier : ∀ initializer, formOf file node ≠ .Identifier initializer)
    (h : Outcome file handled (operands file.toProgram node) new pushed) : Outcome file handled [node] new pushed where
  nodup := h.nodup
  fresh := h.fresh
  reached identifier hmem := by
    obtain ⟨hform, root, hroot, hreaches⟩ := h.reached identifier hmem
    exact ⟨hform, node, List.mem_singleton_self _, reaches_of_operand hroot hreaches⟩
  closed a ha identifier initializer hleads hform := by
    rcases List.mem_append.mp ha with ha | ha
    · obtain rfl := List.mem_singleton.mp ha
      rcases leads_iff.mp hleads with rfl | ⟨operand, hoperand, hleads⟩
      · exact absurd hform (hidentifier initializer)
      · exact h.closed operand (List.mem_append_left _ hoperand) identifier initializer hleads hform
    · exact h.closed a (List.mem_append_right _ ha) identifier initializer hleads hform
  parts := h.parts
  count literal hliteral := by
    rw [h.count literal hliteral, List.countP_append, List.countP_append, countP_operands hpart hliteral]

/-- What a search does to the literals of a concatenation and to the finder. -/
def Searched (file : File Node) (roots : List Node) (before after : List Node × RegexPartFinder Node) : Prop :=
  ∃ new pushed, after.2.handledIdentifiers = before.2.handledIdentifiers ++ new ∧
    Outcome file before.2.handledIdentifiers roots new pushed ∧
    (after.2.parts.flatten ++ after.1).Perm (before.2.parts.flatten ++ before.1 ++ pushed) ∧
    ∀ group ∈ after.2.parts, group ∈ before.2.parts ∨ group ≠ []

variable {before middle after : List Node × RegexPartFinder Node} {finder finder' : RegexPartFinder Node}

theorem Searched.append (h : Searched file roots before middle) (h' : Searched file roots' middle after) :
    Searched file (roots ++ roots') before after := by
  obtain ⟨new, pushed, hhandled, houtcome, hperm, hgroups⟩ := h
  obtain ⟨new', pushed', hhandled', houtcome', hperm', hgroups'⟩ := h'
  rw [hhandled] at houtcome'
  refine ⟨new ++ new', pushed ++ pushed', by rw [hhandled', hhandled, List.append_assoc], houtcome.append houtcome', ?_, ?_⟩
  · rw [← List.append_assoc]
    exact hperm'.trans (hperm.append_right pushed')
  · intro group hgroup
    rcases hgroups' group hgroup with hgroup | hgroup
    · exact hgroups group hgroup
    · exact Or.inr hgroup

theorem Searched.operands (hpart : ¬ IsPart file node) (hidentifier : ∀ initializer, formOf file node ≠ .Identifier initializer)
    (h : Searched file (operands file.toProgram node) before after) : Searched file [node] before after := by
  obtain ⟨new, pushed, hhandled, houtcome, hperm, hgroups⟩ := h
  exact ⟨new, pushed, hhandled, houtcome.operands hpart hidentifier, hperm, hgroups⟩

theorem Searched.refl (houtcome : Outcome file before.2.handledIdentifiers [node] [] []) :
    Searched file [node] before before :=
  ⟨[], [], (List.append_nil _).symm, houtcome, by rw [List.append_nil], fun _ hgroup => Or.inl hgroup⟩

theorem Searched.frame (h : Searched file roots ([], finder) ([], finder')) (literals : List Node) :
    Searched file roots (literals, finder) (literals, finder') := by
  obtain ⟨new, pushed, hhandled, houtcome, hperm, hgroups⟩ := h
  refine ⟨new, pushed, hhandled, houtcome, ?_, hgroups⟩
  simp only [List.append_nil] at hperm ⊢
  refine (hperm.append_right literals).trans ?_
  rw [List.append_assoc, List.append_assoc]
  exact List.perm_append_comm.append_left _

theorem Searched.group {literals : List Node} (h : Searched file roots before (literals, finder)) :
    Searched file roots before
      ([], if literals.length > 0 then { finder with parts := finder.parts ++ [literals] } else finder) := by
  obtain ⟨new, pushed, hhandled, houtcome, hperm, hgroups⟩ := h
  split_ifs with hlength
  · refine ⟨new, pushed, hhandled, houtcome, by simpa using hperm, fun group hgroup => ?_⟩
    rcases List.mem_append.mp hgroup with hgroup | hgroup
    · exact hgroups group hgroup
    · rw [List.mem_singleton.mp hgroup]
      exact Or.inr (List.ne_nil_of_length_pos hlength)
  · obtain rfl := List.eq_nil_of_length_eq_zero (Nat.eq_zero_of_not_pos hlength)
    exact ⟨new, pushed, hhandled, houtcome, hperm, hgroups⟩

theorem Searched.part (h : IsPart file node) :
    Searched file [node] ([], finder) ([], { finder with parts := finder.parts ++ [[node]] }) := by
  refine ⟨[], [node], (List.append_nil _).symm, Outcome.part h, by simp, fun group hgroup => ?_⟩
  rcases List.mem_append.mp hgroup with hgroup | hgroup
  · exact Or.inl hgroup
  · rw [List.mem_singleton.mp hgroup]
    exact Or.inr (List.cons_ne_nil node [])

theorem Searched.literal {literals : List Node} (h : IsPart file node) :
    Searched file [node] (literals, finder) (literals ++ [node], finder) :=
  ⟨[], [node], (List.append_nil _).symm, Outcome.part h, by rw [List.append_assoc], fun _ => Or.inl⟩

theorem Searched.identifier (hform : formOf file node = .Identifier initializer) (hfresh : node ∉ finder.handledIdentifiers)
    (h : Searched file initializer.toList
      ([], { finder with handledIdentifiers := finder.handledIdentifiers ++ [node] }) ([], finder')) :
    Searched file [node] ([], finder) ([], finder') := by
  obtain ⟨new, pushed, hhandled, houtcome, hperm, hgroups⟩ := h
  refine ⟨node :: new, pushed, ?_, houtcome.identifier hform hfresh, hperm, hgroups⟩
  rw [hhandled, List.append_assoc]
  rfl

theorem not_isPart_plus {left right : Node} (h : formOf file node = .BinaryPlus left right) : ¬ IsPart file node := by
  rintro (hform | hform | hform) <;> rw [h] at hform <;> exact nomatch hform

/-- By induction on the fuel: the two functions search what they are given. -/
theorem searched (fuel : ℕ) :
    (∀ node finder finder', find file fuel node finder = some finder' →
      Searched file [node] ([], finder) ([], finder')) ∧
    ∀ node before after, findInStringConcatenation file fuel node before = some after →
      Searched file [node] before after := by
  induction fuel with
  | zero => exact ⟨nofun, nofun⟩
  | succ fuel ih =>
    obtain ⟨ihfind, ihconcat⟩ := ih
    have hplus : ∀ node left right (before middle after : List Node × RegexPartFinder Node),
        formOf file node = .BinaryPlus left right → findInStringConcatenation file fuel left before = some middle →
        findInStringConcatenation file fuel right middle = some after → Searched file [node] before after := by
      intro node left right before middle after hform hleft hright
      refine Searched.operands (not_isPart_plus hform) (fun _ h => nomatch hform.symm.trans h) ?_
      rw [operands_eq, hform]
      exact (ihconcat left before middle hleft).append (ihconcat right middle after hright)
    constructor
    · intro node finder finder' h
      rw [find] at h
      cases hform : formOf file node with
      | RegExpConstructor argument =>
        rw [hform] at h
        have hargument := ihfind argument finder finder' h
        refine Searched.operands ?_ (fun _ h => nomatch hform.symm.trans h) (by rwa [operands_eq, hform])
        rintro (hpart | hpart | hpart) <;> exact nomatch hform.symm.trans hpart
      | RegexLiteral =>
        rw [hform] at h
        exact Option.some_inj.mp h ▸ Searched.part (Or.inl hform)
      | StringLiteral =>
        rw [hform] at h
        exact Option.some_inj.mp h ▸ Searched.part (Or.inr (Or.inl hform))
      | StaticTemplateLiteral =>
        rw [hform] at h
        exact Option.some_inj.mp h ▸ Searched.part (Or.inr (Or.inr hform))
      | Identifier initializer =>
        rw [hform] at h
        dsimp only at h
        split_ifs at h with hhandled
        · rw [← Option.some_inj.mp h]
          exact Searched.refl (.other (operands_identifier hform) (not_isPart_identifier hform) fun _ _ => hhandled)
        · cases initializer with
          | none =>
            rw [← Option.some_inj.mp h]
            exact .identifier hform hhandled ⟨[], [], (List.append_nil _).symm, .nil, by simp, fun _ => Or.inl⟩
          | some initializer => exact .identifier hform hhandled (ihfind initializer _ finder' h)
      | BinaryPlus left right =>
        rw [hform] at h
        obtain ⟨middle, hleft, h⟩ := Option.bind_eq_some_iff.mp h
        obtain ⟨⟨literals, finder''⟩, hright, rfl⟩ := Option.map_eq_some_iff.mp h
        exact (hplus node left right _ middle _ hform hleft hright).group
      | other =>
        rw [hform] at h
        rw [← Option.some_inj.mp h]
        refine Searched.refl (.other (by rw [operands_eq, hform]) ?_ fun _ h => nomatch hform.symm.trans h)
        rintro (hpart | hpart | hpart) <;> exact nomatch hform.symm.trans hpart
    · intro node ⟨literals, finder⟩ after h
      rw [findInStringConcatenation] at h
      have hfind : ∀ finder', find file fuel node finder = some finder' → after = (literals, finder') →
          Searched file [node] (literals, finder) after := by
        rintro finder' hsome rfl
        exact (ihfind node finder finder' hsome).frame literals
      cases hform : formOf file node with
      | StringLiteral =>
        rw [hform] at h
        exact Option.some_inj.mp h ▸ Searched.literal (Or.inr (Or.inl hform))
      | BinaryPlus left right =>
        rw [hform] at h
        obtain ⟨middle, hleft, hright⟩ := Option.bind_eq_some_iff.mp h
        exact hplus node left right _ middle _ hform hleft hright
      | _ =>
        rw [hform] at h
        obtain ⟨finder', hsome, heq⟩ := Option.map_eq_some_iff.mp h
        exact hfind finder' hsome heq.symm

end Search

/-! ### The search ends -/

section Termination

def unhandled (handled : List Node) : ℕ := (file.exits.filter (· ∉ handled)).length

/-- It decreases with each call. -/
def rank (handled : List Node) (node : Node) : ℕ :=
  unhandled file handled * (file.exits.length + 1) + file.exits.idxOf node

variable (handled new : List Node) (initializer : Node) {node operand : Node}

theorem unhandled_append_le : unhandled file (handled ++ new) ≤ unhandled file handled := by
  refine (List.monotone_filter_right _ fun a ha => ?_).length_le
  rw [decide_eq_true_iff] at ha ⊢
  exact fun hmem => ha (List.mem_append_left _ hmem)

variable {handled} in
theorem unhandled_append_lt (h : node ∉ handled) : unhandled file (handled ++ [node]) < unhandled file handled := by
  have hfilter : file.exits.filter (· ∉ handled ++ [node]) = (file.exits.filter (· ∉ handled)).filter (· ≠ node) := by
    rw [List.filter_filter]
    refine List.filter_congr fun a _ => ?_
    simp [and_comm]
  rw [unhandled, hfilter]
  exact List.length_filter_lt_length_iff_exists.mpr ⟨node, List.mem_filter.mpr ⟨file.mem_exits node, decide_eq_true h⟩,
    by simp⟩

variable {file} in
theorem rank_operand (h : operand ∈ operands file.toProgram node) :
    rank file (handled ++ new) operand < rank file handled node := by
  have hlt := file.operand_before node operand h
  have hle := Nat.mul_le_mul_right (file.exits.length + 1) (unhandled_append_le file handled new)
  unfold rank
  omega

variable {handled} in
theorem rank_initializer (h : node ∉ handled) : rank file (handled ++ [node]) initializer < rank file handled node := by
  have hlt := List.idxOf_lt_length_of_mem (file.mem_exits initializer)
  have hle := Nat.mul_le_mul_right (file.exits.length + 1) (Nat.succ_le_of_lt (unhandled_append_lt file h))
  rw [Nat.succ_mul] at hle
  unfold rank
  omega

variable {file} in
/-- By induction on the fuel, which is more than twice the rank. -/
theorem found (fuel : ℕ) :
    (∀ node (finder : RegexPartFinder Node), 2 * rank file finder.handledIdentifiers node + 1 ≤ fuel →
      (find file fuel node finder).isSome) ∧
    ∀ node (before : List Node × RegexPartFinder Node), 2 * rank file before.2.handledIdentifiers node + 2 ≤ fuel →
      (findInStringConcatenation file fuel node before).isSome := by
  induction fuel with
  | zero => exact ⟨fun _ _ h => absurd h (by omega), fun _ _ h => absurd h (by omega)⟩
  | succ fuel ih =>
    obtain ⟨ihfind, ihconcat⟩ := ih
    -- what is handled for the left operand is handled for the right one
    have hplus : ∀ node left right (before : List Node × RegexPartFinder Node), formOf file node = .BinaryPlus left right →
        2 * rank file before.2.handledIdentifiers node ≤ fuel → ∃ middle after,
          findInStringConcatenation file fuel left before = some middle ∧
          findInStringConcatenation file fuel right middle = some after := by
      intro node left right before hform hfuel
      have hoperands : operands file.toProgram node = [left, right] := by rw [operands_eq, hform]
      have hleft := rank_operand before.2.handledIdentifiers [] (hoperands ▸ List.mem_cons_self)
      rw [List.append_nil] at hleft
      obtain ⟨middle, hmiddle⟩ := Option.isSome_iff_exists.mp (ihconcat left before (by omega))
      obtain ⟨new, -, hhandled, -⟩ := (searched fuel).2 left before middle hmiddle
      have hright := rank_operand before.2.handledIdentifiers new
        (hoperands ▸ List.mem_cons_of_mem left List.mem_cons_self)
      rw [← hhandled] at hright
      obtain ⟨after, hafter⟩ := Option.isSome_iff_exists.mp (ihconcat right middle (by omega))
      exact ⟨middle, after, hmiddle, hafter⟩
    constructor
    · intro node finder hfuel
      rw [find]
      cases hform : formOf file node with
      | RegExpConstructor argument =>
        have hoperands : operands file.toProgram node = [argument] := by rw [operands_eq, hform]
        have hlt := rank_operand finder.handledIdentifiers [] (hoperands ▸ List.mem_cons_self)
        rw [List.append_nil] at hlt
        exact ihfind argument finder (by omega)
      | Identifier initializer =>
        dsimp only
        split_ifs with hhandled
        · rfl
        · cases initializer with
          | none => rfl
          | some initializer =>
            have hlt := rank_initializer file initializer hhandled
            exact ihfind initializer _ (by dsimp only; omega)
      | BinaryPlus left right =>
        obtain ⟨middle, after, hleft, hright⟩ := hplus node left right ([], finder) hform (by dsimp only; omega)
        dsimp only
        rw [hleft, Option.bind_some, hright]
        rfl
      | _ => rfl
    · intro node ⟨literals, finder⟩ hfuel
      dsimp only at hfuel
      have hfind := ihfind node finder (by omega)
      rw [findInStringConcatenation]
      cases hform : formOf file node with
      | StringLiteral => rfl
      | BinaryPlus left right =>
        obtain ⟨middle, after, hleft, hright⟩ := hplus node left right (literals, finder) hform (by dsimp only; omega)
        dsimp only
        rw [hleft, Option.bind_some, hright]
        rfl
      | _ => rwa [Option.isSome_map]

/-- Fuel for each node. -/
def bound : ℕ := 2 * (file.exits.length * (file.exits.length + 1) + file.exits.length) + 1

theorem find_isSome (node : Node) {fuel : ℕ} (h : bound file ≤ fuel) : (find file fuel node {}).isSome := by
  refine (found fuel).1 node {} (le_trans ?_ h)
  have hlt := List.idxOf_lt_length_of_mem (file.mem_exits node)
  have hle : unhandled file [] ≤ file.exits.length := List.length_filter_le _ _
  have hmul := Nat.mul_le_mul_right (file.exits.length + 1) hle
  change 2 * rank file [] node + 1 ≤ bound file
  unfold bound rank
  omega

end Termination

/-! ### The whole file -/

section Whole

variable {file} {node identifier literal : Node} {new pushed : List Node}

theorem initializerOf_eq_some {initializer : Node} :
    initializerOf file identifier = some initializer ↔ Initializes file identifier initializer := by
  unfold initializerOf Initializes
  cases formOf file identifier <;> simp

/-- What can be reached is led to by the node or by an initializer of what has been handled. -/
theorem Outcome.leads_of_reaches (h : Outcome file [] [node] new pushed) {other : Node} (hreaches : Reaches file node other) :
    ∃ a ∈ [node] ++ new.filterMap (initializerOf file), Leads file a other := by
  induction hreaches with
  | refl => exact ⟨node, List.mem_cons_self, .refl⟩
  | @tail other next _ hstep ih =>
    obtain ⟨a, ha, hleads⟩ := ih
    rcases hstep with hoperand | hinitializes
    · exact ⟨a, ha, hleads.tail hoperand⟩
    · have hnew := h.closed a ha other _ hleads hinitializes
      rw [List.nil_append] at hnew
      exact ⟨next, List.mem_append_right _ (List.mem_filterMap.mpr ⟨other, hnew, initializerOf_eq_some.mpr hinitializes⟩),
        .refl⟩

theorem Outcome.mem_iff (h : Outcome file [] [node] new pushed) : identifier ∈ new ↔
    (∃ initializer, formOf file identifier = .Identifier initializer) ∧ Reaches file node identifier := by
  constructor
  · intro hmem
    obtain ⟨hform, root, hroot, hreaches⟩ := h.reached identifier hmem
    obtain rfl := List.mem_singleton.mp hroot
    exact ⟨hform, hreaches⟩
  · rintro ⟨⟨initializer, hform⟩, hreaches⟩
    obtain ⟨a, ha, hleads⟩ := h.leads_of_reaches hreaches
    have hmem := h.closed a ha identifier initializer hleads hform
    rwa [List.nil_append] at hmem

theorem Outcome.leadsFrom_some (h : Outcome file [] [node] new pushed) (hmem : identifier ∈ new) :
    LeadsFrom file node literal (some identifier) ↔
      ((initializerOf file identifier).map (leadsTo file literal)).getD false = true := by
  rw [LeadsFrom, and_iff_right (h.mem_iff.mp hmem).2]
  simp only [← initializerOf_eq_some]
  cases initializerOf file identifier with
  | none => simp
  | some initializer => simp [leadsTo_eq_true]

open scoped Classical in
/-- A literal is found as often as it is led to. -/
theorem Outcome.count_eq (h : Outcome file [] [node] new pushed) (hliteral : IsPart file literal) :
    (pushed.count literal : ℕ∞) = {entry | LeadsFrom file node literal entry}.encard := by
  have hset : {entry | LeadsFrom file node literal entry} =
      ((none :: new.map some).filter fun entry => decide (LeadsFrom file node literal entry)).toFinset := by
    refine Set.ext fun entry => ?_
    rw [List.coe_toFinset]
    change _ ↔ entry ∈ List.filter _ _
    rw [List.mem_filter, decide_eq_true_eq]
    refine (and_iff_right_of_imp fun hentry => ?_).symm
    cases entry with
    | none => exact List.mem_cons_self
    | some identifier =>
      obtain ⟨hreaches, initializer, hinitializes, -⟩ := hentry
      exact List.mem_cons_of_mem _ (List.mem_map_of_mem (h.mem_iff.mpr ⟨⟨_, hinitializes⟩, hreaches⟩))
  have hnodup : (none :: new.map some).Nodup :=
    List.nodup_cons.mpr ⟨by simp, h.nodup.map (Option.some_injective Node)⟩
  have hnew : (new.map some).countP (fun entry => decide (LeadsFrom file node literal entry)) =
      (new.filterMap (initializerOf file)).countP (leadsTo file literal) := by
    rw [List.countP_map, List.countP_filterMap]
    refine List.countP_congr fun identifier hmem => ?_
    rw [Function.comp_apply, decide_eq_true_eq]
    exact h.leadsFrom_some hmem
  rw [hset, Set.encard_coe_eq_coe_finsetCard, List.toFinset_card_of_nodup (hnodup.filter _), ← List.countP_eq_length_filter,
    List.countP_cons, hnew, h.count literal hliteral, List.countP_append, List.countP_singleton, Nat.add_comm]
  rfl

theorem findRegexParts_eq (node : Node) {fuel : ℕ} (h : bound file ≤ fuel) :
    ∃ parts, findRegexParts file fuel node = some parts ∧
      (∀ literal, IsPart file literal →
        (parts.flatten.count literal : ℕ∞) = {entry | LeadsFrom file node literal entry}.encard) ∧
      (∀ group ∈ parts, group ≠ []) ∧ ∀ literal ∈ parts.flatten, IsPart file literal := by
  obtain ⟨finder, hfinder⟩ := Option.isSome_iff_exists.mp (find_isSome file node h)
  obtain ⟨new, pushed, -, houtcome, hperm, hgroups⟩ := (searched fuel).1 node {} finder hfinder
  replace hperm : finder.parts.flatten.Perm pushed := by simpa using hperm
  refine ⟨finder.parts, by rw [findRegexParts, hfinder]; rfl, fun literal hliteral => ?_, fun group hgroup => ?_,
    fun literal hmem => houtcome.parts literal (hperm.mem_iff.mp hmem)⟩
  · rw [hperm.count_eq]
    exact houtcome.count_eq hliteral
  · exact (hgroups group hgroup).resolve_left List.not_mem_nil

variable (file) in
/-- What leads to a literal from some of the collected nodes. -/
def entriesOf (nodes : List Node) (literal : Node) : Set (ℕ × Option Node) :=
  {entry | ∃ node, nodes[entry.1]? = some node ∧ LeadsFrom file node literal entry.2}

theorem encard_entriesOf_cons (nodes : List Node) : (entriesOf file (node :: nodes) literal).encard =
    {entry | LeadsFrom file node literal entry}.encard + (entriesOf file nodes literal).encard := by
  have hfirst : Function.Injective fun entry : Option Node => (0, entry) := fun _ _ h => (Prod.mk.inj h).2
  have hrest : Function.Injective fun entry : ℕ × Option Node => (entry.1 + 1, entry.2) := by
    intro entry entry' h
    obtain ⟨hindex, hnode⟩ := Prod.mk.inj h
    exact Prod.ext (Nat.succ.inj hindex) hnode
  have hunion : entriesOf file (node :: nodes) literal =
      (fun entry => (0, entry)) '' {entry | LeadsFrom file node literal entry} ∪
        (fun entry => (entry.1 + 1, entry.2)) '' entriesOf file nodes literal := by
    refine Set.ext fun ⟨index, entry⟩ => ⟨?_, ?_⟩
    · rintro ⟨found, hget, hentry⟩
      cases index with
      | zero =>
        obtain rfl : node = found := Option.some_inj.mp hget
        exact Or.inl ⟨entry, hentry, rfl⟩
      | succ index => exact Or.inr ⟨(index, entry), ⟨found, hget, hentry⟩, rfl⟩
    · rintro (⟨entry', hentry, heq⟩ | ⟨⟨index', entry'⟩, ⟨found, hget, hentry⟩, heq⟩)
      · obtain ⟨rfl, rfl⟩ := Prod.mk.inj heq
        exact ⟨node, rfl, hentry⟩
      · obtain ⟨rfl, rfl⟩ := Prod.mk.inj heq
        exact ⟨found, hget, hentry⟩
  rw [hunion, Set.encard_union_eq, hfirst.encard_image, hrest.encard_image]
  rw [Set.disjoint_left]
  rintro _ ⟨entry, -, rfl⟩ ⟨entry', -, heq⟩
  exact absurd (Prod.mk.inj heq).1 (Nat.succ_ne_zero _)

/-- By induction on the collected nodes. -/
theorem groups_eq (nodes : List Node) {fuel : ℕ} (h : bound file ≤ fuel) :
    ∃ found, nodes.mapM (findRegexParts file fuel) = some found ∧
      (∀ literal, IsPart file literal →
        (found.flatten.flatten.count literal : ℕ∞) = (entriesOf file nodes literal).encard) ∧
      (∀ group ∈ found.flatten, group ≠ []) ∧ ∀ literal ∈ found.flatten.flatten, IsPart file literal := by
  induction nodes with
  | nil =>
    refine ⟨[], rfl, fun literal _ => ?_, nofun, nofun⟩
    have hempty : entriesOf file [] literal = ∅ := by
      refine Set.eq_empty_of_forall_notMem ?_
      rintro entry ⟨node, hget, -⟩
      exact nomatch hget
    rw [hempty, Set.encard_empty]
    rfl
  | cons node nodes ih =>
    obtain ⟨found, hfound, hcount, hgroups, hparts⟩ := ih
    obtain ⟨parts, hfirst, hcount', hgroups', hparts'⟩ := findRegexParts_eq node h
    refine ⟨parts :: found, by rw [List.mapM_cons, hfirst, hfound]; rfl, fun literal hliteral => ?_, ?_, ?_⟩
    · rw [List.flatten_cons, List.flatten_append, List.count_append, Nat.cast_add, hcount' literal hliteral,
        hcount literal hliteral, encard_entriesOf_cons]
    · rw [List.flatten_cons]
      exact fun group hgroup => (List.mem_append.mp hgroup).elim (hgroups' group) (hgroups group)
    · rw [List.flatten_cons, List.flatten_append]
      exact fun literal hmem => (List.mem_append.mp hmem).elim (hparts' literal) (hparts literal)

theorem node_of_check {threshold : ℤ} {group : List Node} {report : Report Node}
    (h : checkRegexComplexity file threshold group = some report) : report.node = group.head? := by
  unfold checkRegexComplexity at h
  dsimp only at h
  split_ifs at h
  exact Option.some_inj.mp h ▸ rfl

theorem count_reports_le (threshold : ℤ) (literal : Node) (groups : List (List Node)) :
    ((groups.filterMap (checkRegexComplexity file threshold)).map Report.node).count (some literal) ≤
      groups.flatten.count literal := by
  induction groups with
  | nil => exact le_rfl
  | cons group groups ih =>
    rw [List.flatten_cons, List.count_append]
    cases hcheck : checkRegexComplexity file threshold group with
    | none =>
      rw [List.filterMap_cons_none hcheck]
      exact ih.trans (Nat.le_add_left _ _)
    | some report =>
      rw [List.filterMap_cons_some hcheck, List.map_cons, List.count_cons, node_of_check hcheck]
      split_ifs with hhead
      · have hmem := List.mem_of_head? (beq_iff_eq.mp hhead)
        have hpos := List.count_pos_iff.mpr hmem
        omega
      · omega

end Whole

/-- The search ends for each node, each literal is found as often as it is led to, and there are no more reports at it. -/
theorem parts_found (file : File Node) (threshold : ℤ) : ∃ bound, ∀ fuel ≥ bound,
    (∀ node, (find file fuel node {}).isSome) ∧ ∃ found reported, groups file fuel = some found ∧
      reports file threshold fuel = some reported ∧
      (∀ literal, IsPart file literal → (found.flatten.count literal : ℕ∞) = (entries file literal).encard) ∧
      (∀ report ∈ reported, ∃ literal, IsPart file literal ∧ report.node = some literal) ∧
      ∀ literal, IsPart file literal →
        ((reported.map Report.node).count (some literal) : ℕ∞) ≤ (entries file literal).encard := by
  refine ⟨bound file, fun fuel hfuel => ⟨fun node => find_isSome file node hfuel, ?_⟩⟩
  obtain ⟨found, hfound, hcount, hgroups, hparts⟩ := groups_eq (regexNodes file) hfuel
  have hgroups_eq : groups file fuel = some found.flatten := by rw [groups, hfound]; rfl
  refine ⟨found.flatten, found.flatten.filterMap (checkRegexComplexity file threshold), hgroups_eq,
    by rw [reports, hgroups_eq]; rfl, hcount, fun report hreport => ?_, fun literal hliteral => ?_⟩
  · obtain ⟨group, hgroup, hcheck⟩ := List.mem_filterMap.mp hreport
    obtain ⟨literal, rest, rfl⟩ := List.exists_cons_of_ne_nil (hgroups group hgroup)
    refine ⟨literal, hparts literal (List.mem_flatten.mpr ⟨_, hgroup, List.mem_cons_self⟩), ?_⟩
    rw [node_of_check hcheck, List.head?_cons]
  · refine le_trans ?_ (hcount literal hliteral).le
    exact Nat.cast_le.mpr (count_reports_le threshold literal found.flatten)

/-! ### A regular expression in a constructor -/

/-- The nodes of `RegExp(/x*/)` but the program and the statement. -/
inductive ExampleNode
  | callee | literal | call
  deriving DecidableEq

namespace ExampleNode

def syntaxOf : ExampleNode → Regex.Extract.Syntax ExampleNode
  | callee => .Identifier "RegExp"
  | literal => .RegExpLiteral [120, 42] []
  | call => .CallExpression callee [literal]

def constructed : File ExampleNode where
  syntaxOf := syntaxOf
  parent
    | callee | literal => some call
    | call => none
  getScope _ := .global []
  isBuiltin node := node = callee
  isString := none
  isRegExp node := node = literal
  complexity _ := 1
  exits := [callee, literal, call]
  mem_exits node := by cases node <;> decide
  nodup_exits := by decide
  operand_before node operand := by cases node <;> cases operand <;> decide
  parent_operand node operand := by cases node <;> cases operand <;> decide
  nodup_operands node := by cases node <;> decide

end ExampleNode

theorem literal_found_twice : ¬ ∀ (Node : Type) (_ : DecidableEq Node) (file : File Node) (threshold : ℤ) (fuel : ℕ)
    (reported : List (Report Node)), reports file threshold fuel = some reported →
    (reported.map Report.node).Nodup := by
  intro h
  have hnodup := h ExampleNode inferInstance ExampleNode.constructed 0 2 _ rfl
  exact absurd hnodup (by decide)

end SonarJavascript.Rules.RegexParts
