import SonarJavascript.Helpers.Conditions

/-!
# S3923: all branches are identical

The rule compares the branches without the `break` that closes them. What a statement does is a parameter; a
`switch` that has been entered at a clause goes on from clause to clause until a statement does not complete
normally.

`same_iff`: what a reported `switch` executes is the same for each clause that may be entered if and only if
its clauses are closed alike, or its body never comes to its end. A reported `if` chain always executes the
same (`same_of_ifReported`).
-/

namespace SonarJavascript.Rules.IdenticalBranches

open Helpers

/-! ### The rule -/

def allDuplicated {α : Type} (equivalent : α → α → Bool) (branches : List α) : Bool :=
  1 < branches.length && consecutive equivalent branches

def visitIfStatement (parent : Option Node) (ifStmt : Node) : Bool :=
  !parent.any Node.isIfStatement && (collectIfBranches ifStmt).2 &&
    allDuplicated areEquivalent (collectIfBranches ifStmt).1

def visitSwitchStatement (cases : List SwitchCase) : Bool :=
  (collectSwitchBranches cases).2 && allDuplicated areEquivalentLists (collectSwitchBranches cases).1

/-! ### Execution -/

inductive Completion
  | normal
  | breakSwitch
  | abrupt
  deriving DecidableEq

def isPlainBreak : Node → Bool
  | .ifStatement .. => false
  | .other type _ label => type.1 = "BreakStatement" && label.isEmpty

/-- What JavaScript does with a statement. A `break` with a label jumps to the end of a statement that encloses
the `switch`. -/
structure Meaning (σ : Type) where
  execute : Node → σ → Completion × σ
  execute_break : ∀ node s, node.type = "BreakStatement" →
    execute node s = if isPlainBreak node then (.breakSwitch, s) else (.abrupt, s)

variable {σ : Type} (M : Meaning σ)

structure Result (σ : Type) where
  executed : List (String × List String)
  completion : Completion
  state : σ

/-- The texts of the statements that are executed. A `break` without a label is not one of them, it only closes
a clause. -/
def run : List Node → σ → Result σ
  | [], s => ⟨[], .normal, s⟩
  | node :: rest, s =>
    let text := if isPlainBreak node then [] else [node.text]
    match M.execute node s with
    | (.normal, s') => ⟨text ++ (run rest s').executed, (run rest s').completion, (run rest s').state⟩
    | (completion, s') => ⟨text, completion, s'⟩

/-- The statements from a clause on. -/
def statements (clauses : List SwitchCase) : List Node := clauses.flatMap (·.consequent)

def enter (cases : List SwitchCase) (clause : ℕ) (s : σ) : Result σ := run M (statements (cases.drop clause)) s

/-- The branch that is taken, by the outcomes of the tests. -/
def taken (outcome : ℕ → Bool) : Node → Option Node
  | .ifStatement _ _ consequent none => if outcome 0 then some consequent else none
  | .ifStatement _ _ consequent (some alternate) =>
    if outcome 0 then some consequent else taken (fun i => outcome (i + 1)) alternate
  | statement => some statement

/-- Equivalent statements do the same: the line breaks, which the comparison ignores, make no difference. -/
def Faithful (nodes : List Node) : Prop :=
  ∀ a ∈ nodes, ∀ b ∈ nodes, areEquivalent a b = true → M.execute a = M.execute b

variable {M} {s : σ} {nodes first second : List Node}

theorem run_append (first second : List Node) (s : σ) : run M (first ++ second) s =
    if (run M first s).completion = .normal then
      ⟨(run M first s).executed ++ (run M second (run M first s).state).executed,
        (run M second (run M first s).state).completion, (run M second (run M first s).state).state⟩
    else run M first s := by
  induction first generalizing s with
  | nil => simp [run]
  | cons node first ih =>
    rw [List.cons_append, run, run]
    obtain ⟨completion, s'⟩ := M.execute node s
    cases completion with
    | normal =>
      simp only [ih]
      split_ifs <;> simp
    | breakSwitch => simp
    | abrupt => simp

theorem isPlainBreak_type {node : Node} (h : isPlainBreak node = true) : node.type = "BreakStatement" := by
  cases node with
  | ifStatement _ _ _ _ => cases h
  | other type _ _ =>
    simp only [isPlainBreak, Bool.and_eq_true, decide_eq_true_eq] at h
    exact h.1

theorem isPlainBreak_congr {a b : Node} (htext : a.text = b.text) (hexecute : M.execute a = M.execute b) (s : σ) :
    isPlainBreak a = isPlainBreak b := by
  have htype : a.type = b.type := congrArg Prod.fst htext
  by_cases hbreak : a.type = "BreakStatement"
  · have ha := M.execute_break a s hbreak
    have hb := M.execute_break b s (htype ▸ hbreak)
    rw [hexecute, hb] at ha
    cases hplain : isPlainBreak a <;> cases hplain' : isPlainBreak b <;> simp_all
  · rw [Bool.eq_false_iff.mpr fun h => hbreak (isPlainBreak_type h),
      Bool.eq_false_iff.mpr fun h => hbreak (htype ▸ isPlainBreak_type h)]

theorem run_congr (htext : first.map Node.text = second.map Node.text)
    (hexecute : ∀ a ∈ first, ∀ b ∈ second, a.text = b.text → M.execute a = M.execute b) (s : σ) :
    run M first s = run M second s := by
  induction first generalizing second s with
  | nil => cases second with
    | nil => rfl
    | cons _ _ => cases htext
  | cons a first ih =>
    cases second with
    | nil => cases htext
    | cons b second =>
      obtain ⟨hab, hrest⟩ := List.cons.inj htext
      have heq := hexecute a (by simp) b (by simp) hab
      have ih := ih hrest fun c hc d hd => hexecute c (by simp [hc]) d (by simp [hd])
      rw [run, run, isPlainBreak_congr hab heq s, hab, heq]
      simp only [ih]

/-! ### `if` chains -/

theorem taken_mem {ifStmt : Node} (outcome : ℕ → Bool) (h : (collectIfBranches ifStmt).2 = true) :
    ∃ branch ∈ (collectIfBranches ifStmt).1, taken outcome ifStmt = some branch := by
  induction ifStmt using collectIfBranches.induct generalizing outcome with
  | case1 => cases h
  | case2 _ _ consequent alternate ih =>
    obtain ⟨branch, hbranch, htaken⟩ := ih (fun i => outcome (i + 1)) h
    cases houtcome : outcome 0 with
    | true => exact ⟨consequent, by simp [collectIfBranches], by simp [taken, houtcome]⟩
    | false => exact ⟨branch, by simp [collectIfBranches, hbranch], by simp [taken, houtcome, htaken]⟩
  | case3 node hnone hsome =>
    cases node with
    | ifStatement tokens test consequent alternate =>
      cases alternate with
      | none => exact absurd rfl (hnone _ _ _)
      | some _ => exact absurd rfl (hsome _ _ _ _)
    | other type tokens children => exact ⟨_, List.mem_singleton_self _, rfl⟩

theorem text_eq_of_allDuplicated {α β : Type} {equivalent : α → α → Bool} {text : α → β}
    (htext : ∀ a b, equivalent a b = true ↔ text a = text b) {branches : List α}
    (h : allDuplicated equivalent branches = true) {a b : α} (ha : a ∈ branches) (hb : b ∈ branches) :
    text a = text b := by
  simp only [allDuplicated, Bool.and_eq_true] at h
  cases branches with
  | nil => cases ha
  | cons first rest =>
    have hall : ∀ branch ∈ first :: rest, text branch = text first :=
      List.forall_mem_cons.mpr ⟨rfl, (consecutive_iff htext).mp h.2⟩
    exact (hall a ha).trans (hall b hb).symm

theorem same_of_ifReported {parent : Option Node} {ifStmt : Node} (h : visitIfStatement parent ifStmt = true)
    (hfaithful : Faithful M (collectIfBranches ifStmt).1) (outcome outcome' : ℕ → Bool) (s : σ) :
    run M (taken outcome ifStmt).toList s = run M (taken outcome' ifStmt).toList s := by
  simp only [visitIfStatement, Bool.and_eq_true] at h
  obtain ⟨branch, hbranch, htaken⟩ := taken_mem outcome h.1.2
  obtain ⟨branch', hbranch', htaken'⟩ := taken_mem outcome' h.1.2
  have htext : branch.text = branch'.text :=
    text_eq_of_allDuplicated areEquivalent_iff h.2 hbranch hbranch'
  rw [htaken, htaken']
  refine run_congr (by simpa using htext) (fun a ha b hb hab => ?_) s
  obtain rfl := List.mem_singleton.mp ha
  obtain rfl := List.mem_singleton.mp hb
  exact hfaithful _ hbranch _ hbranch' ((areEquivalent_iff _ _).mpr hab)

/-! ### `switch` statements -/

/-- The `break` that is not compared. -/
def closing (nodes : List Node) : Option Node := nodes.getLast?.filter fun node => node.type = "BreakStatement"

/-- The text of a `break` with a label. -/
def target (closing : Option Node) : Option (String × List String) :=
  closing.bind fun node => if isPlainBreak node then none else some node.text

/-- A clause is closed by a `break`, and goes where the last one goes. -/
def ClosedLike (last clause : SwitchCase) : Prop :=
  closing clause.consequent ≠ none ∧ target (closing clause.consequent) = target (closing last.consequent)

variable (M) in
def ComesToEnd (nodes : List Node) : Prop := ∃ s, (run M nodes s).completion = .normal

theorem takeWithoutBreak_append_closing (nodes : List Node) :
    takeWithoutBreak nodes ++ (closing nodes).toList = nodes := by
  unfold takeWithoutBreak closing
  cases hlast : nodes.getLast? with
  | none => simp
  | some node =>
    by_cases hbreak : node.type = "BreakStatement"
    · obtain ⟨before, rfl⟩ := List.getLast?_eq_some_iff.mp hlast
      simp [hbreak, Option.filter]
    · simp [hbreak, Option.filter]

theorem closing_type {node : Node} (h : closing nodes = some node) : node.type = "BreakStatement" := by
  obtain ⟨-, htype⟩ := Option.filter_eq_some_iff.mp h
  simpa using htype

theorem implementedClauses_append (clauses : List SwitchCase) (last : SwitchCase) :
    implementedClauses (clauses ++ [last]) = (clauses.filter fun clause => clause.consequent ≠ []) ++ [last] := by
  induction clauses with
  | nil => rfl
  | cons clause clauses ih =>
    obtain ⟨next, rest, hrest⟩ : ∃ next rest, clauses ++ [last] = next :: rest := by
      cases clauses <;> simp
    rw [List.cons_append, hrest, implementedClauses, ← hrest, ih]
    · by_cases hempty : clause.consequent = [] <;> simp [hempty]
    · nofun

theorem run_break {node : Node} (h : node.type = "BreakStatement") (rest : List Node) (s : σ) :
    (run M (node :: rest) s).executed = (target (some node)).toList := by
  rw [run, M.execute_break node s h]
  cases hplain : isPlainBreak node <;> simp [target, hplain]

theorem head?_executed {node : Node} {rest : List Node} (h : (run M (node :: rest) s).completion = .normal)
    (tail : List Node) (s' : σ) : (run M (node :: tail) s').executed.head? = some node.text := by
  have hplain : isPlainBreak node = false := by
    by_contra hplain
    rw [Bool.not_eq_false] at hplain
    rw [run, M.execute_break node s (isPlainBreak_type hplain), if_pos hplain] at h
    cases h
  rw [run, hplain]
  obtain ⟨completion, s''⟩ := M.execute node s'
  cases completion <;> simp

/-- What the rule knows of a reported `switch`, which has a last clause: every clause with statements has the body
of the last one. -/
theorem body_of_switchReported {clauses : List SwitchCase} {last clause : SwitchCase}
    (h : visitSwitchStatement (clauses ++ [last]) = true) (hclause : clause ∈ clauses)
    (hne : clause.consequent ≠ []) :
    (takeWithoutBreak clause.consequent).map Node.text = (takeWithoutBreak last.consequent).map Node.text := by
  simp only [visitSwitchStatement, collectSwitchBranches, Bool.and_eq_true, implementedClauses_append] at h
  refine text_eq_of_allDuplicated areEquivalentLists_iff h.2 ?_ ?_
  · exact List.mem_map_of_mem (List.mem_append_left _ (List.mem_filter.mpr ⟨hclause, by simpa using hne⟩))
  · exact List.mem_map_of_mem (List.mem_append_right _ (List.mem_singleton_self _))

section Switch

variable {clauses : List SwitchCase} {last : SwitchCase}

variable (M) in
/-- A `switch` that is reported, and whose equivalent statements do the same. -/
structure FaithfullyReported (clauses : List SwitchCase) (last : SwitchCase) : Prop where
  reported : visitSwitchStatement (clauses ++ [last]) = true
  faithful : Faithful M (statements (clauses ++ [last]))

theorem mem_statements {clause : SwitchCase} {node : Node} (hclause : clause ∈ clauses ++ [last])
    (hnode : node ∈ clause.consequent) : node ∈ statements (clauses ++ [last]) :=
  List.mem_flatMap.mpr ⟨clause, hclause, hnode⟩

theorem mem_of_mem_takeWithoutBreak {node : Node} (h : node ∈ takeWithoutBreak nodes) : node ∈ nodes := by
  rw [← takeWithoutBreak_append_closing nodes]
  exact List.mem_append_left _ h

/-- The body of a clause executes as that of the last one. -/
theorem FaithfullyReported.run_body (h : FaithfullyReported M clauses last) {clause : SwitchCase}
    (hclause : clause ∈ clauses) (hne : clause.consequent ≠ []) (s : σ) :
    run M (takeWithoutBreak clause.consequent) s = run M (takeWithoutBreak last.consequent) s := by
  refine run_congr (body_of_switchReported h.reported hclause hne) (fun a ha b hb hab => ?_) s
  exact h.faithful a (mem_statements (List.mem_append_left _ hclause) (mem_of_mem_takeWithoutBreak ha)) b
    (mem_statements (List.mem_append_right _ (List.mem_singleton_self _)) (mem_of_mem_takeWithoutBreak hb))
    ((areEquivalent_iff _ _).mpr hab)

/-- A clause that is entered executes its body and then, if this comes to its end, what follows. -/
theorem executed_clause (clause : SwitchCase) (tail : List Node) (s : σ) :
    (run M (clause.consequent ++ tail) s).executed =
      (run M (takeWithoutBreak clause.consequent) s).executed ++
        if (run M (takeWithoutBreak clause.consequent) s).completion = .normal then
          (run M ((closing clause.consequent).toList ++ tail)
            (run M (takeWithoutBreak clause.consequent) s).state).executed
        else [] := by
  conv_lhs => rw [← takeWithoutBreak_append_closing clause.consequent, List.append_assoc, run_append]
  split_ifs <;> simp

theorem executed_last (last : SwitchCase) (s : σ) : (run M last.consequent s).executed =
    (run M (takeWithoutBreak last.consequent) s).executed ++
      if (run M (takeWithoutBreak last.consequent) s).completion = .normal then
        (target (closing last.consequent)).toList
      else [] := by
  have h := executed_clause (M := M) last [] s
  rw [List.append_nil] at h
  rw [h]
  cases hclosing : closing last.consequent with
  | none => simp [target, run]
  | some node =>
    rw [Option.toList_some, List.append_nil]
    simp only [run_break (closing_type hclosing)]

/-- Where the clauses are closed alike, each of them executes what the last one does. -/
theorem executed_eq_last (h : FaithfullyReported M clauses last)
    (hclosed : ComesToEnd M (takeWithoutBreak last.consequent) →
      ∀ clause ∈ clauses, clause.consequent ≠ [] → ClosedLike last clause)
    {rest : List SwitchCase} (hrest : ∀ clause ∈ rest, clause ∈ clauses) (s : σ) :
    (run M (statements (rest ++ [last])) s).executed = (run M last.consequent s).executed := by
  induction rest with
  | nil => simp [statements]
  | cons clause rest ih =>
    obtain ⟨hclause, hrest⟩ := List.forall_mem_cons.mp hrest
    rw [statements, List.cons_append, List.flatMap_cons]
    by_cases hne : clause.consequent = []
    · rw [hne, List.nil_append]
      exact ih hrest
    · rw [executed_clause, executed_last, h.run_body hclause hne]
      split_ifs with hend
      · obtain ⟨hsome, htarget⟩ := hclosed ⟨s, hend⟩ clause hclause hne
        obtain ⟨node, hnode⟩ := Option.ne_none_iff_exists'.mp hsome
        rw [hnode, Option.toList_some, List.singleton_append, run_break (closing_type hnode), ← hnode, htarget]
      · rfl

theorem head?_append_of_head? {α : Type} {a : α} {l l' : List α} (h : l.head? = some a) :
    (l ++ l').head? = some a := by
  rw [List.head?_append, h, Option.some_or]

/-- What is entered by falling through begins with the first statement of the body. -/
theorem head?_fallThrough (h : FaithfullyReported M clauses last) {node : Node} {body : List Node}
    (hbody : takeWithoutBreak last.consequent = node :: body) (hend : (run M (node :: body) s).completion = .normal)
    {rest : List SwitchCase} (hrest : ∀ clause ∈ rest, clause ∈ clauses) (s' : σ) :
    (run M (statements (rest ++ [last])) s').executed.head? = some node.text := by
  have hhead := head?_executed hend body s'
  induction rest with
  | nil =>
    rw [List.nil_append, statements, List.flatMap_singleton, executed_last, hbody]
    exact head?_append_of_head? hhead
  | cons clause rest ih =>
    obtain ⟨hclause, hrest⟩ := List.forall_mem_cons.mp hrest
    rw [statements, List.cons_append, List.flatMap_cons]
    by_cases hne : clause.consequent = []
    · rw [hne, List.nil_append]
      exact ih hrest
    · rw [executed_clause, h.run_body hclause hne, hbody]
      exact head?_append_of_head? hhead

/-- The body of the last clause does not begin like the `break` with a label that closes it, if it comes to its
end. -/
theorem target_ne_head (h : FaithfullyReported M clauses last) {node : Node} {body : List Node}
    (hbody : takeWithoutBreak last.consequent = node :: body)
    (hend : (run M (node :: body) s).completion = .normal) :
    target (closing last.consequent) ≠ some node.text := by
  intro htarget
  obtain ⟨jump, hjump, htext⟩ := Option.bind_eq_some_iff.mp htarget
  obtain ⟨hplain, htext⟩ : isPlainBreak jump = false ∧ jump.text = node.text := by
    cases hplain : isPlainBreak jump <;> simp_all
  have hlast : last ∈ clauses ++ [last] := by simp
  have hmem : node ∈ last.consequent := mem_of_mem_takeWithoutBreak (hbody ▸ List.mem_cons_self)
  have hjumpMem : jump ∈ last.consequent := by
    rw [← takeWithoutBreak_append_closing last.consequent, hjump]
    exact List.mem_append_right _ (List.mem_singleton_self _)
  have hexecute := h.faithful jump (mem_statements hlast hjumpMem) node (mem_statements hlast hmem)
    ((areEquivalent_iff _ _).mpr htext)
  rw [run, ← hexecute, M.execute_break jump s (closing_type hjump), hplain] at hend
  cases hend

/-- A clause that executes what the last one does is closed like it. -/
theorem closedLike_of_executed (h : FaithfullyReported M clauses last) {clause : SwitchCase}
    {after : List SwitchCase} (hclause : clause ∈ clauses) (hafter : ∀ clause ∈ after, clause ∈ clauses)
    (hne : clause.consequent ≠ []) (hend : (run M (takeWithoutBreak last.consequent) s).completion = .normal)
    (hsame : (run M (clause.consequent ++ statements (after ++ [last])) s).executed =
      (run M last.consequent s).executed) : ClosedLike last clause := by
  rw [executed_clause, executed_last, h.run_body hclause hne, if_pos hend, if_pos hend,
    List.append_cancel_left_eq] at hsame
  cases hclosing : closing clause.consequent with
  | some node =>
    rw [hclosing, Option.toList_some, List.singleton_append, run_break (closing_type hclosing), ← hclosing] at hsame
    exact ⟨by simp [hclosing], by simpa using congrArg List.head? hsame⟩
  | none =>
    -- the clause falls through, and executes more than the last one
    have hlength := congrArg List.length (body_of_switchReported h.reported hclause hne)
    have hwhole := takeWithoutBreak_append_closing clause.consequent
    rw [hclosing, Option.toList_none, List.append_nil] at hwhole
    rw [hwhole, List.length_map, List.length_map] at hlength
    cases hbody : takeWithoutBreak last.consequent with
    | nil => exact absurd (List.length_eq_zero_iff.mp (by rw [hlength, hbody]; rfl)) hne
    | cons node body =>
      rw [hbody] at hend
      have hhead := head?_fallThrough h hbody hend hafter (run M (takeWithoutBreak last.consequent) s).state
      rw [hclosing, Option.toList_none, List.nil_append] at hsame
      rw [hsame] at hhead
      refine absurd ?_ (target_ne_head h hbody hend)
      cases htarget : target (closing last.consequent) with
      | none => simp [htarget] at hhead
      | some text => simpa [htarget] using hhead

variable (M) in
/-- The same statements are executed whichever clause is entered. -/
def ExecutesSame (cases : List SwitchCase) : Prop :=
  ∀ s, ∀ i < cases.length, ∀ j < cases.length, (enter M cases i s).executed = (enter M cases j s).executed

/-- A reported `switch` executes the same if and only if its clauses are closed alike, or its body never comes to
its end. -/
theorem executesSame_iff (h : FaithfullyReported M clauses last) :
    ExecutesSame M (clauses ++ [last]) ↔ (ComesToEnd M (takeWithoutBreak last.consequent) →
      ∀ clause ∈ clauses, clause.consequent ≠ [] → ClosedLike last clause) := by
  have hlength : (clauses ++ [last]).length = clauses.length + 1 := by simp
  constructor
  · rintro hsame ⟨s, hend⟩ clause hclause hne
    obtain ⟨before, after, rfl⟩ := List.append_of_mem hclause
    have hentered := hsame s before.length (by simp) (before ++ clause :: after).length (by simp)
    rw [enter, enter, List.drop_left, List.append_assoc, List.drop_left] at hentered
    have hafter : ∀ c ∈ after, c ∈ before ++ clause :: after := fun c hc => by simp [hc]
    refine closedLike_of_executed h hclause hafter hne hend ?_
    simpa [statements] using hentered
  · intro hclosed s i hi j hj
    have hdrop : ∀ i < (clauses ++ [last]).length,
        (enter M (clauses ++ [last]) i s).executed = (run M last.consequent s).executed := by
      intro i hi
      rw [enter, List.drop_append_of_le_length (by omega)]
      exact executed_eq_last h hclosed (fun clause hclause => List.mem_of_mem_drop hclause) s
    rw [hdrop i hi, hdrop j hj]

end Switch

/-- **What is reported executes the same**: an `if` chain always, and a `switch` if and only if its clauses are
closed alike or its body never comes to its end. -/
theorem reported_same (M : Meaning σ) :
    (∀ parent ifStmt, visitIfStatement parent ifStmt = true → Faithful M (collectIfBranches ifStmt).1 →
      ∀ outcome outcome' s, run M (taken outcome ifStmt).toList s = run M (taken outcome' ifStmt).toList s) ∧
    ∀ clauses last, FaithfullyReported M clauses last →
      (ExecutesSame M (clauses ++ [last]) ↔ (ComesToEnd M (takeWithoutBreak last.consequent) →
        ∀ clause ∈ clauses, clause.consequent ≠ [] → ClosedLike last clause)) :=
  ⟨fun _ _ h hfaithful outcome outcome' s => same_of_ifReported h hfaithful outcome outcome' s,
    fun _ _ h => executesSame_iff h⟩

/-- Every statement but a `break` completes normally. -/
def straight : Meaning Unit where
  execute node s :=
    if node.type = "BreakStatement" then if isPlainBreak node then (.breakSwitch, s) else (.abrupt, s)
    else (.normal, s)
  execute_break node s h := by simp [h]

/-- The statement `f();`. -/
def callStatement : Node :=
  .other ⟨"ExpressionStatement", by decide⟩ [⟨"f", 1, 1⟩, ⟨"(", 1, 1⟩, ⟨")", 1, 1⟩, ⟨";", 1, 1⟩] []

def breakStatement : Node := .other ⟨"BreakStatement", by decide⟩ [⟨"break", 1, 1⟩, ⟨";", 1, 1⟩] []

def one : Node := .other ⟨"Literal", by decide⟩ [⟨"1", 1, 1⟩] []

/-- `if (1) f(); else f();` -/
def ifChain : Node := .ifStatement [] one callStatement (some callStatement)

/-- In front of `default: f();` -/
def closedClause : SwitchCase := ⟨some one, [callStatement, breakStatement]⟩

def lastClause : SwitchCase := ⟨none, [callStatement]⟩

theorem closedClause_faithful : FaithfullyReported straight [closedClause] lastClause where
  reported := by decide
  faithful a ha b hb hequivalent := by
    have hcases : ∀ node ∈ statements ([closedClause] ++ [lastClause]),
        node = callStatement ∨ node = breakStatement := by
      simp [statements, closedClause, lastClause]
    rcases hcases a ha with rfl | rfl <;> rcases hcases b hb with rfl | rfl
    · rfl
    · exact absurd hequivalent (by decide)
    · exact absurd hequivalent (by decide)
    · rfl

theorem ifChain_faithful : Faithful straight (collectIfBranches ifChain).1 := by
  have hbranches : ∀ branch ∈ (collectIfBranches ifChain).1, branch = callStatement := by
    simp [ifChain, collectIfBranches, callStatement]
  intro a ha b hb _
  rw [hbranches a ha, hbranches b hb]

theorem reported_same_closed :
    run straight (taken (fun _ => true) ifChain).toList () = run straight (taken (fun _ => false) ifChain).toList () ∧
      ExecutesSame straight ([closedClause] ++ [lastClause]) := by
  obtain ⟨hchain, hswitch⟩ := reported_same straight
  refine ⟨hchain none ifChain (by decide) ifChain_faithful _ _ (), ?_⟩
  refine (hswitch [closedClause] lastClause closedClause_faithful).mpr fun _ clause hclause _ => ?_
  obtain rfl := List.mem_singleton.mp hclause
  exact ⟨nofun, rfl⟩

/-- `case 1: f(); default: f();` -/
def fallThrough : List SwitchCase := [⟨some one, [callStatement]⟩, ⟨none, [callStatement]⟩]

/-- It is reported, and calls `f` twice for the value 1. -/
theorem fallThrough_differs : visitSwitchStatement fallThrough = true ∧ ¬ ExecutesSame straight fallThrough := by
  refine ⟨by decide, fun h => ?_⟩
  have hsame := h () 0 (by decide) 1 (by decide)
  exact absurd (congrArg List.length hsame) (by decide)

/-- A `return` ends with its line. The state is whether a value has been returned. -/
def returning : Meaning Bool where
  execute node s :=
    if node.type = "BreakStatement" then if isPlainBreak node then (.breakSwitch, s) else (.abrupt, s)
    else match node.tokens with
      | keyword :: value :: _ => (.abrupt, decide (keyword.endLine = value.startLine))
      | _ => (.normal, s)
  execute_break node s h := by simp [h]

/-- `return x;` with its value on the line. -/
def returnStatement (line : ℕ) : Node :=
  .other ⟨"ReturnStatement", by decide⟩ [⟨"return", 1, 1⟩, ⟨"x", line, line⟩, ⟨";", line, line⟩] []

def returnChain : Node := .ifStatement [] one (returnStatement 2) (some (returnStatement 1))

theorem returnChain_differs : visitIfStatement none returnChain = true ∧
    (run returning (taken (fun _ => true) returnChain).toList false).state ≠
      (run returning (taken (fun _ => false) returnChain).toList false).state := by
  decide

end SonarJavascript.Rules.IdenticalBranches
