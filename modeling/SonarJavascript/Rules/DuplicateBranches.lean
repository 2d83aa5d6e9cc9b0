import Mathlib.Data.List.Nodup
import Mathlib.Data.List.TakeWhile
import SonarJavascript.Helpers.Conditions

/-!
# S1871: duplicate branches of an `if` chain

The nodes of a program are told apart by their paths. `visitIfStatement` leaves a statement alone when its
parent is an `if` statement, as an `else if` is; so it does a statement that is the consequent of another one.

`exact_iff`: the branches that are reported are those that have to be, exactly if no chain of the latter kind
has one.
-/

namespace SonarJavascript.Rules.DuplicateBranches

open Helpers

/-! ### The rule -/

def hasRequiredSize (nodes : List Node) : Bool :=
  match nodes.head?, nodes.getLast? with
  | some first, some last =>
    let tokens := (first.tokens ++ last.tokens).filter fun token => token.value ≠ "\x7b" ∧ token.value ≠ "\x7d"
    match tokens.head?, tokens.getLast? with
    | some firstToken, some lastToken => firstToken.startLine < lastToken.endLine
    | _, _ => false
  | _, _ => false

def allEquivalentWithoutDefault (branches : List Node) (endsWithDefault : Bool) : Bool :=
  !endsWithDefault && 1 < branches.length && consecutive areEquivalent branches

/-- The first of the branches before it that the branch is equivalent to. -/
def findOriginal (branches : List Node) (i : ℕ) : Option ℕ :=
  (List.range i).find? fun j =>
    match branches[i]?, branches[j]? with
    | some branch, some earlier => areEquivalent branch earlier
    | _, _ => false

/-- The branches that are reported, each with the one that it repeats. -/
def visitIfStatement (parent : Option Node) (ifStmt : Node) : List (ℕ × ℕ) :=
  if parent.any Node.isIfStatement then []
  else
    let (branches, endsWithElse) := collectIfBranches ifStmt
    if allEquivalentWithoutDefault branches endsWithElse then
      (List.range' 1 (branches.length - 1)).map fun i => (i, i - 1)
    else
      (List.range' 1 (branches.length - 1)).filterMap fun i =>
        if hasRequiredSize branches[i]?.toList then (findOriginal branches i).map fun j => (i, j) else none

/-! ### Programs -/

inductive Step
  | test
  | consequent
  | alternate
  | child (index : ℕ)
  deriving DecidableEq

abbrev Path := List Step

def childAt : Node → Step → Option Node
  | .ifStatement _ test _ _, .test => some test
  | .ifStatement _ _ consequent _, .consequent => some consequent
  | .ifStatement _ _ _ alternate, .alternate => alternate
  | .other _ _ children, .child index => children[index]?
  | _, _ => none

/-- The node at a path, after its parent. -/
def nodeAt (program : Node) (path : Path) : Option (Option Node × Node) :=
  path.foldlM (fun place step => (childAt place.2 step).map fun child => (some place.2, child)) (none, program)

/-- The paths of the branches of a chain from its head. -/
def branchPaths : Node → List Path
  | .ifStatement _ _ _ none => [[.consequent]]
  | .ifStatement _ _ _ (some alternate) => [.consequent] :: (branchPaths alternate).map (.alternate :: ·)
  | _ => [[]]

/-- The rule reports the node at the path: it visits every `if` statement. -/
def Reported (program : Node) (branch : Path) : Prop :=
  ∃ path parent ifStmt i j, ∃ fromHead : Path,
    nodeAt program path = some (parent, ifStmt) ∧ ifStmt.isIfStatement = true ∧
    (i, j) ∈ visitIfStatement parent ifStmt ∧ (branchPaths ifStmt)[i]? = some fromHead ∧ branch = path ++ fromHead

/-- The head of a chain: an `if` statement that is not the alternate of another one. -/
structure Head (program : Node) (path : Path) (parent : Option Node) (ifStmt : Node) : Prop where
  nodeAt_eq : nodeAt program path = some (parent, ifStmt)
  isIfStatement : ifStmt.isIfStatement = true
  notAlternate : path.getLast? ≠ some .alternate

/-! ### What has to be reported -/

/-- Without braces, the tokens go over more than one line. -/
def SpansLines (node : Node) : Prop :=
  ∃ first last, (node.tokens.filter fun token => token.value ≠ "\x7b" ∧ token.value ≠ "\x7d").head? = some first ∧
    (node.tokens.filter fun token => token.value ≠ "\x7b" ∧ token.value ≠ "\x7d").getLast? = some last ∧
      first.startLine < last.endLine

def MustReport (branches : List Node) (endsWithElse : Bool) (i : ℕ) : Prop :=
  (endsWithElse = false ∧ 1 < branches.length ∧ (∀ a ∈ branches, ∀ b ∈ branches, areEquivalent a b = true) ∧
      0 < i ∧ i < branches.length) ∨
    ∃ branch, branches[i]? = some branch ∧ SpansLines branch ∧
      ∃ j < i, ∃ earlier, branches[j]? = some earlier ∧ areEquivalent branch earlier = true

theorem hasRequiredSize_iff {node : Node} : hasRequiredSize [node] = true ↔ SpansLines node := by
  simp only [hasRequiredSize, List.head?_cons, List.getLast?_singleton, List.filter_append, SpansLines]
  generalize node.tokens.filter _ = tokens
  cases tokens with
  | nil => simp
  | cons first rest =>
    obtain ⟨last, hlast⟩ : ∃ last, (first :: rest).getLast? = some last := ⟨_, List.getLast?_eq_some_getLast (by simp)⟩
    have happend : (first :: rest ++ first :: rest).getLast? = some last := by
      rw [List.getLast?_append, hlast, Option.some_or]
    rw [List.cons_append] at happend
    simp [happend, hlast]

theorem findOriginal_isSome_iff {branches : List Node} {i : ℕ} {branch : Node} (h : branches[i]? = some branch) :
    (∃ j, findOriginal branches i = some j) ↔
      ∃ j < i, ∃ earlier, branches[j]? = some earlier ∧ areEquivalent branch earlier = true := by
  rw [← Option.isSome_iff_exists, findOriginal, List.find?_isSome]
  simp only [List.mem_range, h]
  refine exists_congr fun j => and_congr_right fun _ => ?_
  cases branches[j]? <;> simp

theorem allEquivalentWithoutDefault_iff {branches : List Node} {endsWithElse : Bool} :
    allEquivalentWithoutDefault branches endsWithElse = true ↔
      endsWithElse = false ∧ 1 < branches.length ∧ ∀ a ∈ branches, ∀ b ∈ branches, areEquivalent a b = true := by
  unfold allEquivalentWithoutDefault
  simp only [Bool.and_eq_true, Bool.not_eq_true', decide_eq_true_eq, and_assoc, areEquivalent_iff]
  refine and_congr_right fun _ => and_congr_right fun _ => ?_
  cases branches with
  | nil => simp [consecutive]
  | cons first rest =>
    rw [consecutive_iff areEquivalent_iff]
    constructor
    · intro h
      have hall : ∀ a ∈ first :: rest, a.text = first.text := List.forall_mem_cons.mpr ⟨rfl, h⟩
      exact fun a ha b hb => (hall a ha).trans (hall b hb).symm
    · exact fun h a ha => h a (List.mem_cons_of_mem _ ha) first List.mem_cons_self

theorem exists_mem_visitIfStatement_iff {parent : Option Node} (hparent : parent.any Node.isIfStatement = false)
    (ifStmt : Node) (i : ℕ) : (∃ j, (i, j) ∈ visitIfStatement parent ifStmt) ↔
      MustReport (collectIfBranches ifStmt).1 (collectIfBranches ifStmt).2 i := by
  simp only [visitIfStatement, hparent, Bool.false_eq_true, if_false]
  generalize (collectIfBranches ifStmt).1 = branches, (collectIfBranches ifStmt).2 = endsWithElse
  have hlength : ∀ {branch : Node}, branches[i]? = some branch → i < branches.length := fun h =>
    (List.getElem?_eq_some_iff.mp h).1
  by_cases hall : allEquivalentWithoutDefault branches endsWithElse = true
  · obtain ⟨helse, hmany, hequivalent⟩ := allEquivalentWithoutDefault_iff.mp hall
    rw [if_pos hall]
    have hmem : (∃ j, (i, j) ∈ (List.range' 1 (branches.length - 1)).map fun i => (i, i - 1)) ↔
        0 < i ∧ i < branches.length := by
      simp only [List.mem_map, List.mem_range'_1, Prod.mk.injEq]
      constructor
      · rintro ⟨_, k, hk, rfl, -⟩
        omega
      · rintro ⟨hpos, hlt⟩
        exact ⟨i - 1, i, by omega, rfl, rfl⟩
    rw [hmem]
    constructor
    · rintro ⟨hpos, hlt⟩
      exact .inl ⟨helse, hmany, hequivalent, hpos, hlt⟩
    · rintro (⟨-, -, -, hpos, hlt⟩ | ⟨branch, hbranch, -, j, hj, -⟩)
      · exact ⟨hpos, hlt⟩
      · exact ⟨by omega, hlength hbranch⟩
  · rw [if_neg hall]
    have hfirst : ¬ (endsWithElse = false ∧ 1 < branches.length ∧
        (∀ a ∈ branches, ∀ b ∈ branches, areEquivalent a b = true) ∧ 0 < i ∧ i < branches.length) :=
      fun h => hall (allEquivalentWithoutDefault_iff.mpr ⟨h.1, h.2.1, h.2.2.1⟩)
    simp only [MustReport, hfirst, false_or, List.mem_filterMap, List.mem_range'_1, Option.ite_none_right_eq_some,
      Option.map_eq_some_iff, Prod.mk.injEq]
    constructor
    · rintro ⟨j, k, hk, hsize, j', horiginal, rfl, rfl⟩
      obtain ⟨branch, hbranch⟩ : ∃ branch, branches[k]? = some branch :=
        ⟨_, List.getElem?_eq_getElem (by omega)⟩
      rw [hbranch, Option.toList_some, hasRequiredSize_iff] at hsize
      exact ⟨branch, hbranch, hsize, (findOriginal_isSome_iff hbranch).mp ⟨_, horiginal⟩⟩
    · rintro ⟨branch, hbranch, hspans, hearlier⟩
      obtain ⟨j, horiginal⟩ := (findOriginal_isSome_iff hbranch).mpr hearlier
      have hi := hlength hbranch
      obtain ⟨k, hk, -⟩ := hearlier
      refine ⟨j, i, by omega, ?_, j, horiginal, rfl, rfl⟩
      rwa [hbranch, Option.toList_some, hasRequiredSize_iff]

/-! ### Paths -/

/-- Where the chain of a branch begins. -/
def origin (path : Path) : Path :=
  if path.getLast? = some .consequent then (path.dropLast.reverse.dropWhile (· = .alternate)).reverse
  else (path.reverse.dropWhile (· = .alternate)).reverse

theorem exists_replicate_of_mem_branchPaths {node : Node} {path : Path} (h : path ∈ branchPaths node) :
    ∃ k, path = List.replicate k .alternate ++ [.consequent] ∨
      path = List.replicate k .alternate ∧ (node.isIfStatement = true → 0 < k) := by
  induction node using branchPaths.induct generalizing path with
  | case1 =>
    obtain rfl := List.mem_singleton.mp h
    exact ⟨0, .inl rfl⟩
  | case2 _ _ _ alternate ih =>
    obtain rfl | h := List.mem_cons.mp h
    · exact ⟨0, .inl rfl⟩
    · obtain ⟨rest, hrest, rfl⟩ := List.mem_map.mp h
      obtain ⟨k, rfl | ⟨rfl, -⟩⟩ := ih hrest
      · exact ⟨k + 1, .inl rfl⟩
      · exact ⟨k + 1, .inr ⟨rfl, fun _ => Nat.succ_pos k⟩⟩
  | case3 node hnone hsome =>
    cases node with
    | ifStatement tokens test consequent alternate =>
      cases alternate with
      | none => exact absurd rfl (hnone _ _ _)
      | some _ => exact absurd rfl (hsome _ _ _ _)
    | other _ _ _ =>
      obtain rfl := List.mem_singleton.mp h
      exact ⟨0, .inr ⟨rfl, nofun⟩⟩

theorem origin_append {path fromHead : Path} {ifStmt : Node} (hif : ifStmt.isIfStatement = true)
    (hpath : path.getLast? ≠ some .alternate) (h : fromHead ∈ branchPaths ifStmt) :
    origin (path ++ fromHead) = path := by
  have hdrop : ∀ k, (List.replicate k Step.alternate ++ path.reverse).dropWhile (· = .alternate) = path.reverse := by
    intro k
    rw [List.dropWhile_append_of_pos (by simp)]
    cases hreverse : path.reverse with
    | nil => rfl
    | cons last rest =>
      rw [List.getLast?_eq_head?_reverse, hreverse] at hpath
      simp_all
  obtain ⟨k, rfl | ⟨rfl, hk⟩⟩ := exists_replicate_of_mem_branchPaths h
  · rw [origin, ← List.append_assoc, List.getLast?_concat, if_pos rfl, List.dropLast_concat, List.reverse_append,
      List.reverse_replicate, hdrop, List.reverse_reverse]
  · obtain ⟨k, rfl⟩ := Nat.exists_eq_succ_of_ne_zero (hk hif).ne'
    have hlast : (path ++ List.replicate (k + 1) Step.alternate).getLast? ≠ some .consequent := by
      simp [List.replicate_succ', ← List.append_assoc]
    rw [origin, if_neg hlast, List.reverse_append, List.reverse_replicate, hdrop, List.reverse_reverse]

theorem nodup_branchPaths (node : Node) : (branchPaths node).Nodup := by
  induction node using branchPaths.induct with
  | case1 => exact List.nodup_singleton _
  | case2 _ _ _ alternate ih =>
    refine List.nodup_cons.mpr ⟨?_, ih.map fun _ _ => List.tail_eq_of_cons_eq⟩
    simp
  | case3 node hnone hsome =>
    cases node with
    | ifStatement tokens test consequent alternate =>
      cases alternate with
      | none => exact absurd rfl (hnone _ _ _)
      | some _ => exact absurd rfl (hsome _ _ _ _)
    | other _ _ _ => exact List.nodup_singleton _

theorem length_branchPaths (node : Node) : (branchPaths node).length = (collectIfBranches node).1.length := by
  induction node using branchPaths.induct with
  | case1 => rfl
  | case2 _ _ _ alternate ih => simpa [branchPaths, collectIfBranches] using ih
  | case3 node hnone hsome =>
    cases node with
    | ifStatement tokens test consequent alternate =>
      cases alternate with
      | none => exact absurd rfl (hnone _ _ _)
      | some _ => exact absurd rfl (hsome _ _ _ _)
    | other _ _ _ => rfl

theorem parent_of_alternate {program node : Node} {path : Path} {parent : Option Node}
    (h : nodeAt program (path ++ [.alternate]) = some (parent, node)) : parent.any Node.isIfStatement = true := by
  rw [nodeAt, List.foldlM_append] at h
  obtain ⟨⟨grandparent, upper⟩, -, hstep⟩ := Option.bind_eq_some_iff.mp h
  cases upper with
  | ifStatement _ _ _ alternate =>
    cases alternate with
    | none => simp [childAt] at hstep
    | some _ =>
      simp only [List.foldlM_cons, List.foldlM_nil, childAt, Option.map_some, Option.bind_eq_bind,
        Option.bind_some, Option.pure_def, Option.some.injEq, Prod.mk.injEq] at hstep
      rw [← hstep.1]
      rfl
  | other _ _ _ => simp [childAt] at hstep

theorem notAlternate_of_mem {program ifStmt : Node} {path : Path} {parent : Option Node} {report : ℕ × ℕ}
    (h : nodeAt program path = some (parent, ifStmt)) (hreport : report ∈ visitIfStatement parent ifStmt) :
    path.getLast? ≠ some .alternate := by
  intro hlast
  obtain ⟨before, rfl⟩ := List.getLast?_eq_some_iff.mp hlast
  rw [visitIfStatement, if_pos (parent_of_alternate h)] at hreport
  cases hreport

theorem reported_iff {program ifStmt : Node} {path fromHead : Path} {parent : Option Node} {i : ℕ}
    (h : Head program path parent ifStmt) (hbranch : (branchPaths ifStmt)[i]? = some fromHead) :
    Reported program (path ++ fromHead) ↔ ∃ j, (i, j) ∈ visitIfStatement parent ifStmt := by
  constructor
  · rintro ⟨path', parent', ifStmt', i', j, fromHead', hnode, hif, hreport, hbranch', heq⟩
    have hpath : path = path' := by
      have horigin := congrArg origin heq
      rwa [origin_append h.isIfStatement h.notAlternate (List.mem_of_getElem? hbranch),
        origin_append hif (notAlternate_of_mem hnode hreport) (List.mem_of_getElem? hbranch')] at horigin
    subst hpath
    obtain ⟨rfl, rfl⟩ := Prod.mk.inj (Option.some.inj (h.nodeAt_eq.symm.trans hnode))
    obtain rfl := List.append_cancel_left heq
    obtain ⟨hi, hget⟩ := List.getElem?_eq_some_iff.mp hbranch
    obtain ⟨hi', hget'⟩ := List.getElem?_eq_some_iff.mp hbranch'
    obtain rfl := (nodup_branchPaths ifStmt).getElem_inj_iff.mp (hget.trans hget'.symm)
    exact ⟨j, hreport⟩
  · rintro ⟨j, hreport⟩
    exact ⟨path, parent, ifStmt, i, j, fromHead, h.nodeAt_eq, h.isIfStatement, hreport, hbranch, rfl⟩

/-! ### The chains of a program -/

/-- Of each chain, the branches that have to be reported are, and no others. -/
def Exact (program : Node) : Prop :=
  ∀ path parent ifStmt, Head program path parent ifStmt →
    ∀ i fromHead, (branchPaths ifStmt)[i]? = some fromHead →
      (Reported program (path ++ fromHead) ↔
        MustReport (collectIfBranches ifStmt).1 (collectIfBranches ifStmt).2 i)

theorem lt_length_of_mustReport {branches : List Node} {endsWithElse : Bool} {i : ℕ}
    (h : MustReport branches endsWithElse i) : i < branches.length := by
  rcases h with ⟨-, -, -, -, hlt⟩ | ⟨branch, hbranch, -⟩
  · exact hlt
  · exact (List.getElem?_eq_some_iff.mp hbranch).1

/-- **When the reports are exact.** -/
theorem exact_iff (program : Node) : Exact program ↔
    ∀ path parent ifStmt, Head program path parent ifStmt → parent.any Node.isIfStatement = true →
      ∀ i, ¬ MustReport (collectIfBranches ifStmt).1 (collectIfBranches ifStmt).2 i := by
  constructor
  · intro h path parent ifStmt hhead hparent i hmust
    have hi : i < (branchPaths ifStmt).length := length_branchPaths ifStmt ▸ lt_length_of_mustReport hmust
    have hbranch := List.getElem?_eq_getElem hi
    obtain ⟨j, hreport⟩ := (reported_iff hhead hbranch).mp ((h path parent ifStmt hhead i _ hbranch).mpr hmust)
    rw [visitIfStatement, if_pos hparent] at hreport
    cases hreport
  · intro h path parent ifStmt hhead i fromHead hbranch
    rw [reported_iff hhead hbranch]
    cases hparent : parent.any Node.isIfStatement with
    | false => exact exists_mem_visitIfStatement_iff hparent ifStmt i
    | true =>
      refine iff_of_false ?_ (h path parent ifStmt hhead hparent i)
      rintro ⟨j, hreport⟩
      rw [visitIfStatement, if_pos hparent] at hreport
      cases hreport

/-- The tokens of a line. -/
def tokensOn (line : ℕ) (values : List String) : List Token := values.map fun value => ⟨value, line, line⟩

/-- `{ f(); g(); }` on four lines. -/
def block (line : ℕ) : Node :=
  .other ⟨"BlockStatement", by decide⟩ (tokensOn line ["\x7b"] ++ tokensOn (line + 1) ["f", "(", ")", ";"] ++
    tokensOn (line + 2) ["g", "(", ")", ";"] ++ tokensOn (line + 3) ["\x7d"]) []

def identifier (line : ℕ) (name : String) : Node :=
  .other ⟨"Identifier", by decide⟩ (tokensOn line [name]) []

/-- `if (b) { f(); g(); } else { f(); g(); }`, without braces after `if (a)`. -/
def nestedChain : Node :=
  .ifStatement (tokensOn 2 ["if", "(", "b", ")"] ++ (block 2).tokens ++ tokensOn 5 ["else"] ++ (block 5).tokens)
    (identifier 2 "b") (block 2) (some (block 5))

def bracelessIf : Node :=
  .ifStatement (tokensOn 1 ["if", "(", "a", ")"] ++ nestedChain.tokens) (identifier 1 "a") nestedChain none

/-- The second branch is not reported. -/
theorem bracelessIf_not_exact : ¬ Exact bracelessIf := by
  intro h
  have hhead : Head bracelessIf [.consequent] (some bracelessIf) nestedChain := ⟨rfl, rfl, by decide⟩
  have hmust : MustReport (collectIfBranches nestedChain).1 (collectIfBranches nestedChain).2 1 := by
    refine .inr ⟨block 5, rfl, hasRequiredSize_iff.mp ?_, 0, by decide, block 2, rfl, ?_⟩
    · rfl
    · rfl
  obtain ⟨j, hreport⟩ := (reported_iff (i := 1) hhead rfl).mp ((h _ _ _ hhead 1 [.alternate] rfl).mpr hmust)
  cases hreport

end SonarJavascript.Rules.DuplicateBranches
