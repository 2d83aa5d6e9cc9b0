import Mathlib.Data.List.Chain
import Mathlib.Data.Nat.Notation
import Mathlib.Data.List.Flatten

/-!
# Commented out code (S125)

A block comment is a group of its own. A line comment joins the group of the line comment before it when it is on the
next line and no token starts up to there. The groups hold every comment once (`perm_getGroupedComments`), and
between the first and the last comment of a group there is no token (`groups_removable`).

The recognizer of code and the parser are a parameter.
-/

namespace SonarJavascript.Rules.CommentedCode

/-! ### The source code -/

inductive CommentType
  | Block
  | Line
  | Shebang
  deriving DecidableEq

structure Range where
  start : ℕ
  stop : ℕ
  deriving DecidableEq

namespace Range

def Before (a b : Range) : Prop := a.stop ≤ b.start

/-- The ranges have no place in common. -/
def Disjoint (a b : Range) : Prop := a.Before b ∨ b.Before a

end Range

structure Comment where
  type : CommentType
  value : String
  range : Range
  deriving DecidableEq

structure Token where
  range : Range
  deriving DecidableEq

/-- The tokens of a file in the order of the text, its comments, and the line of each place. -/
structure SourceCode where
  tokens : List Token
  comments : List Comment
  line : ℕ → ℕ
  monotone_line : ∀ {a b}, a ≤ b → line a ≤ line b
  token_start_le_stop : ∀ token ∈ tokens, token.range.start ≤ token.range.stop
  sorted_tokens : tokens.Pairwise fun a b => a.range.Before b.range
  disjoint : ∀ token ∈ tokens, ∀ comment ∈ comments, token.range.Disjoint comment.range

namespace SourceCode

/-- The first token that starts at or after the end of a comment. -/
def getTokenAfter (sourceCode : SourceCode) (comment : Comment) : Option Token :=
  sourceCode.tokens.find? fun token => comment.range.stop ≤ token.range.start

end SourceCode

/-! ### Grouping -/

/-- A group has a first and a last comment. -/
structure GroupComment where
  value : String
  nodes : List Comment
  ne_nil : nodes ≠ []

variable (sourceCode : SourceCode)

def areAdjacentLineComments (previous next : Comment) : Bool :=
  let nextCommentLine := sourceCode.line next.range.start
  if sourceCode.line previous.range.start + 1 = nextCommentLine then
    match sourceCode.getTokenAfter previous with
    | none => true
    | some nextCodeToken => sourceCode.line nextCodeToken.range.start > nextCommentLine
  else false

/-- The line comments of a group, one under the other. -/
def lineGroup (currentGroup : List Comment) (h : currentGroup ≠ []) : GroupComment :=
  ⟨"\n".intercalate (currentGroup.map Comment.value), currentGroup, h⟩

/-- The groups that are complete, and the line comments of the current one. -/
structure Grouping where
  groupedComments : List GroupComment
  currentGroup : List Comment

def Grouping.add (grouping : Grouping) (comment : Comment) : Grouping :=
  if comment.type = .Block then
    { grouping with
      groupedComments := grouping.groupedComments ++ [⟨comment.value, [comment], List.cons_ne_nil _ _⟩] }
  else if h : grouping.currentGroup = [] then { grouping with currentGroup := [comment] }
  else if areAdjacentLineComments sourceCode (grouping.currentGroup.getLast h) comment then
    { grouping with currentGroup := grouping.currentGroup ++ [comment] }
  else ⟨grouping.groupedComments ++ [lineGroup grouping.currentGroup h], [comment]⟩

def Grouping.finish (grouping : Grouping) : List GroupComment :=
  if h : grouping.currentGroup = [] then grouping.groupedComments
  else grouping.groupedComments ++ [lineGroup grouping.currentGroup h]

def getGroupedComments (comments : List Comment) : List GroupComment :=
  (comments.foldl (Grouping.add sourceCode) ⟨[], []⟩).finish

/-! ### Reporting -/

/-- The range that the suggestion removes. -/
def GroupComment.removeRange (group : GroupComment) : Range :=
  ⟨(group.nodes.head group.ne_nil).range.start, (group.nodes.getLast group.ne_nil).range.stop⟩

/-- The ranges of the suggestions, one for each group that is recognized as code. -/
def suggestions (isCode : String → Bool) : List Range :=
  ((getGroupedComments sourceCode sourceCode.comments).filter fun group => isCode group.value).map
    GroupComment.removeRange

/-! ### What a step of the grouping does -/

variable {grouping : Grouping}

/-- A comment joins the current group, or it is in a new one and the current group is complete or kept. -/
theorem add_cases (grouping : Grouping) (comment : Comment) :
    (∃ group : GroupComment, group.nodes = [comment] ∧
        grouping.add sourceCode comment = ⟨grouping.groupedComments ++ [group], grouping.currentGroup⟩) ∨
      ((∀ last ∈ grouping.currentGroup.getLast?, areAdjacentLineComments sourceCode last comment = true) ∧
        grouping.add sourceCode comment = ⟨grouping.groupedComments, grouping.currentGroup ++ [comment]⟩) ∨
      ∃ group : GroupComment, group.nodes = grouping.currentGroup ∧
        grouping.add sourceCode comment = ⟨grouping.groupedComments ++ [group], [comment]⟩ := by
  unfold Grouping.add
  split_ifs with hblock hempty hadjacent
  · exact .inl ⟨_, rfl, rfl⟩
  · refine .inr (.inl ⟨fun last hlast => ?_, by rw [hempty]; rfl⟩)
    rw [hempty] at hlast
    cases hlast
  · refine .inr (.inl ⟨fun last hlast => ?_, rfl⟩)
    rw [List.getLast?_eq_some_getLast hempty, Option.mem_some] at hlast
    rw [← hlast]
    exact hadjacent
  · exact .inr (.inr ⟨_, rfl, rfl⟩)

theorem finish_cases (grouping : Grouping) :
    grouping.currentGroup = [] ∧ grouping.finish = grouping.groupedComments ∨
      ∃ group : GroupComment, group.nodes = grouping.currentGroup ∧
        grouping.finish = grouping.groupedComments ++ [group] := by
  unfold Grouping.finish
  split_ifs with hempty
  · exact .inl ⟨hempty, rfl⟩
  · exact .inr ⟨_, rfl, rfl⟩

/-! ### Every comment once -/

/-- The comments that are in some group. -/
def Grouping.comments (grouping : Grouping) : List Comment :=
  grouping.groupedComments.flatMap GroupComment.nodes ++ grouping.currentGroup

theorem comments_add (grouping : Grouping) (comment : Comment) :
    (grouping.add sourceCode comment).comments.Perm (grouping.comments ++ [comment]) := by
  obtain ⟨group, hnodes, hadd⟩ | ⟨-, hadd⟩ | ⟨group, hnodes, hadd⟩ := add_cases sourceCode grouping comment
  · rw [hadd, Grouping.comments, List.flatMap_append, List.flatMap_singleton, hnodes, Grouping.comments,
      List.append_assoc, List.append_assoc]
    exact List.perm_append_comm.append_left _
  · rw [hadd, Grouping.comments, Grouping.comments, List.append_assoc]
  · rw [hadd, Grouping.comments, List.flatMap_append, List.flatMap_singleton, hnodes, Grouping.comments]

theorem comments_foldl (grouping : Grouping) (comments : List Comment) :
    (comments.foldl (Grouping.add sourceCode) grouping).comments.Perm (grouping.comments ++ comments) := by
  induction comments generalizing grouping with
  | nil => rw [List.append_nil]; exact List.Perm.refl _
  | cons comment comments ih =>
    have hstep := (comments_add sourceCode grouping comment).append_right comments
    rw [List.append_assoc] at hstep
    exact (ih _).trans hstep

theorem perm_getGroupedComments (comments : List Comment) :
    ((getGroupedComments sourceCode comments).flatMap GroupComment.nodes).Perm comments := by
  have hperm := comments_foldl sourceCode ⟨[], []⟩ comments
  rw [Grouping.comments] at hperm
  obtain ⟨hempty, hfinish⟩ | ⟨group, hnodes, hfinish⟩ :=
    finish_cases (comments.foldl (Grouping.add sourceCode) ⟨[], []⟩)
  · rw [getGroupedComments, hfinish]
    rwa [hempty, List.append_nil] at hperm
  · rw [getGroupedComments, hfinish, List.flatMap_append, List.flatMap_singleton, hnodes]
    exact hperm

/-! ### No token in a group -/

variable {sourceCode}

/-- Each comment of a group is adjacent to the one before. -/
abbrev Adjacent (sourceCode : SourceCode) (nodes : List Comment) : Prop :=
  nodes.IsChain fun previous next => areAdjacentLineComments sourceCode previous next = true

/-- The invariant of the grouping. -/
structure Grouping.Adjacent (sourceCode : SourceCode) (grouping : Grouping) : Prop where
  groups : ∀ group ∈ grouping.groupedComments, CommentedCode.Adjacent sourceCode group.nodes
  current : CommentedCode.Adjacent sourceCode grouping.currentGroup

theorem Grouping.Adjacent.add (h : grouping.Adjacent sourceCode) (comment : Comment) :
    (grouping.add sourceCode comment).Adjacent sourceCode := by
  obtain ⟨group, hnodes, hadd⟩ | ⟨hlast, hadd⟩ | ⟨group, hnodes, hadd⟩ := add_cases sourceCode grouping comment
  · rw [hadd]
    refine ⟨List.forall_mem_append.mpr ⟨h.groups, List.forall_mem_singleton.mpr ?_⟩, h.current⟩
    rw [hnodes]
    exact List.isChain_singleton comment
  · rw [hadd]
    refine ⟨h.groups, h.current.append (List.isChain_singleton comment) ?_⟩
    intro last hmem next hnext
    obtain rfl : comment = next := Option.some.inj hnext
    exact hlast last hmem
  · rw [hadd]
    refine ⟨List.forall_mem_append.mpr ⟨h.groups, List.forall_mem_singleton.mpr ?_⟩, List.isChain_singleton comment⟩
    rw [hnodes]
    exact h.current

theorem Grouping.Adjacent.foldl (h : grouping.Adjacent sourceCode) (comments : List Comment) :
    (comments.foldl (Grouping.add sourceCode) grouping).Adjacent sourceCode := by
  induction comments generalizing grouping with
  | nil => exact h
  | cons comment comments ih => exact ih (h.add comment)

theorem adjacent_of_mem {comments : List Comment} {group : GroupComment}
    (h : group ∈ getGroupedComments sourceCode comments) : Adjacent sourceCode group.nodes := by
  have hinv : (comments.foldl (Grouping.add sourceCode) ⟨[], []⟩).Adjacent sourceCode :=
    Grouping.Adjacent.foldl ⟨by simp, List.isChain_nil⟩ comments
  rw [getGroupedComments] at h
  obtain ⟨-, hfinish⟩ | ⟨last, hnodes, hfinish⟩ :=
    finish_cases (comments.foldl (Grouping.add sourceCode) ⟨[], []⟩)
  · rw [hfinish] at h
    exact hinv.groups group h
  · rw [hfinish] at h
    rcases List.mem_append.mp h with hgroup | hlast
    · exact hinv.groups group hgroup
    · rw [List.mem_singleton.mp hlast, hnodes]
      exact hinv.current

/-- A token after the first of two adjacent comments starts after the line of the second one. -/
theorem line_lt_of_adjacent {previous next : Comment} (h : areAdjacentLineComments sourceCode previous next = true)
    {token : Token} (hmem : token ∈ sourceCode.tokens) (hafter : previous.range.Before token.range) :
    sourceCode.line next.range.start < sourceCode.line token.range.start := by
  unfold areAdjacentLineComments at h
  simp only at h
  split_ifs at h
  obtain ⟨first, hfirst⟩ : ∃ first, sourceCode.getTokenAfter previous = some first :=
    Option.isSome_iff_exists.mp (List.find?_isSome.mpr ⟨token, hmem, decide_eq_true hafter⟩)
  rw [hfirst] at h
  refine lt_of_lt_of_le (of_decide_eq_true h) (sourceCode.monotone_line ?_)
  -- the tokens before the first one after the comment are not after it
  obtain ⟨-, before, after, htokens, hbefore⟩ := List.find?_eq_some_iff_append.mp hfirst
  have hsorted := sourceCode.sorted_tokens
  rw [htokens] at hmem hsorted
  rcases List.mem_append.mp hmem with hearly | hlate
  · simpa [hafter.not_gt] using hbefore token hearly
  · rcases List.mem_cons.mp hlate with rfl | hlate
    · exact le_rfl
    · have hstart := sourceCode.token_start_le_stop first (htokens ▸ by simp)
      exact hstart.trans (List.rel_of_pairwise_cons (List.pairwise_append.mp hsorted).2.1 hlate)

theorem disjoint_of_adjacent {nodes : List Comment} (h : Adjacent sourceCode nodes) (hne : nodes ≠ [])
    (hsubset : ∀ node ∈ nodes, node ∈ sourceCode.comments) {token : Token} (hmem : token ∈ sourceCode.tokens) :
    token.range.stop ≤ (nodes.head hne).range.start ∨ (nodes.getLast hne).range.stop ≤ token.range.start := by
  induction nodes with
  | nil => exact absurd rfl hne
  | cons first rest ih =>
    obtain ⟨hfirst, hrest⟩ := List.forall_mem_cons.mp hsubset
    rcases sourceCode.disjoint token hmem first hfirst with hbefore | hafter
    · exact .inl hbefore
    · cases rest with
      | nil => exact .inr hafter
      | cons second rest =>
        obtain ⟨hadjacent, hchain⟩ := List.isChain_cons_cons.mp h
        rcases ih hchain (List.cons_ne_nil _ _) hrest with hbefore | hlast
        · have hline := line_lt_of_adjacent hadjacent hmem hafter
          have hle := sourceCode.monotone_line ((sourceCode.token_start_le_stop token hmem).trans hbefore)
          exact absurd hle (Nat.not_le.mpr hline)
        · exact .inr hlast

/-- Every comment is in one group, and what the suggestion for a group removes has no place in common with a token. -/
theorem groups_removable (sourceCode : SourceCode) :
    ((getGroupedComments sourceCode sourceCode.comments).flatMap GroupComment.nodes).Perm sourceCode.comments ∧
      ∀ group ∈ getGroupedComments sourceCode sourceCode.comments, ∀ token ∈ sourceCode.tokens,
        token.range.Disjoint group.removeRange := by
  have hperm := perm_getGroupedComments sourceCode sourceCode.comments
  refine ⟨hperm, fun group hgroup token htoken => ?_⟩
  have hsubset : ∀ node ∈ group.nodes, node ∈ sourceCode.comments := fun node hnode =>
    hperm.subset (List.mem_flatMap.mpr ⟨group, hgroup, hnode⟩)
  exact disjoint_of_adjacent (adjacent_of_mem hgroup) group.ne_nil hsubset htoken

/-! ### A file with its lines -/

/-- The line of a place, by the places where lines begin. -/
def lineOf (lineStarts : List ℕ) (place : ℕ) : ℕ := lineStarts.countP (· ≤ place)

theorem lineOf_le (lineStarts : List ℕ) {a b : ℕ} (h : a ≤ b) : lineOf lineStarts a ≤ lineOf lineStarts b := by
  refine List.countP_mono_left fun start _ hstart => ?_
  rw [decide_eq_true_eq] at hstart ⊢
  exact hstart.trans h

def lineComments : List Comment :=
  [⟨.Line, " g();", ⟨5, 12⟩⟩, ⟨.Line, " h();", ⟨13, 20⟩⟩]

def blockComment : Comment := ⟨.Block, " k(); ", ⟨21, 31⟩⟩

/-- `f(); // g();`, `// h();` and, on the third line, a block comment around ` k(); ` and `l();`. -/
def threeLines : SourceCode where
  tokens := [⟨⟨0, 1⟩⟩, ⟨⟨1, 2⟩⟩, ⟨⟨2, 3⟩⟩, ⟨⟨3, 4⟩⟩, ⟨⟨32, 33⟩⟩, ⟨⟨33, 34⟩⟩, ⟨⟨34, 35⟩⟩, ⟨⟨35, 36⟩⟩]
  comments := lineComments ++ [blockComment]
  line := lineOf [0, 13, 21]
  monotone_line := lineOf_le [0, 13, 21]
  token_start_le_stop := by decide
  sorted_tokens := by unfold Range.Before; decide
  disjoint := by unfold Range.Disjoint Range.Before; decide

/-- The two line comments are one group. -/
theorem groups_removable_threeLines :
    (getGroupedComments threeLines threeLines.comments).map GroupComment.nodes = [[blockComment], lineComments] ∧
      ((getGroupedComments threeLines threeLines.comments).flatMap GroupComment.nodes).Perm threeLines.comments ∧
        ∀ group ∈ getGroupedComments threeLines threeLines.comments, ∀ token ∈ threeLines.tokens,
          token.range.Disjoint group.removeRange :=
  ⟨by decide, groups_removable threeLines⟩

end SonarJavascript.Rules.CommentedCode
