import SonarJavascript.Lib.Scanning

/-!
# Duplicates in union and intersection types

S4621 suggests to remove the second and the later members of a group with the same text, each from the end of the member
in front to its own end, with the closing parentheses that belong to no node (`endsOf_eq`). What is left is read and
parsed as before but for one place: when the last member is removed, another one stands in front of what follows the
type (`duplicates_removed_iff`).
-/

namespace SonarJavascript.Rules.DuplicateTypes

open Scanning

/-! ### The rule -/

/-- A token of the source code with its range. -/
structure RangedToken where
  value : Text
  start : ℕ
  stop : ℕ

/-- A member of a type, with the operator in front of it and its parentheses. -/
structure Part where
  gap : List Piece
  operator : Text
  /-- What is in front of each opening parenthesis. -/
  opening : List Text
  nodeGap : Text
  node : Text
  /-- What is in front of each closing parenthesis. -/
  closing : List Text
  balanced : opening.length = closing.length

def closingText (closing : List Text) : Text := closing.flatMap (· ++ [')'])

namespace Part

variable (part : Part)

/-- Up to the end of the node. -/
def front : Text := textOf part.gap ++ (part.operator ++ (part.opening.flatMap (· ++ ['(']) ++ (part.nodeGap ++ part.node)))

def back : Text := closingText part.closing

def text : Text := part.front ++ part.back

end Part

/-- From the end of a node on. -/
def closingTokens (position : ℕ) : List Text → List RangedToken
  | [] => []
  | gap :: closing =>
    let start := position + gap.length
    ⟨[')'], start, start + 1⟩ :: closingTokens (start + 1) closing

/-- With the tokens behind the node. -/
def getEnd (stop : ℕ) (tokens : List RangedToken) (compositeStop : ℕ) : ℕ :=
  match tokens with
  | [] => stop
  | nextToken :: tokens =>
    if nextToken.value = [')'] ∧ nextToken.stop ≤ compositeStop then getEnd nextToken.stop tokens compositeStop
    else stop

/-- The operator of the next member, or what follows the type. -/
def nextTokens (position : ℕ) (afterTokens : List RangedToken) : List Part → List RangedToken
  | [] => afterTokens
  | next :: _ =>
    let start := position + (textOf next.gap).length
    [⟨next.operator, start, start + next.operator.length⟩]

/-- `getEnd` of each member. -/
def endsOf (compositeStop : ℕ) (afterTokens : List RangedToken) : ℕ → List Part → List ℕ
  | _, [] => []
  | position, part :: parts =>
    let nodeStop := position + part.front.length
    getEnd nodeStop (closingTokens nodeStop part.closing ++ nextTokens (position + part.text.length) afterTokens parts)
        compositeStop ::
      endsOf compositeStop afterTokens (position + part.text.length) parts

def partsText (parts : List Part) : Text := parts.flatMap Part.text

/-- The ranges for the members of one text but the first. The member in front of the first one is not asked for. -/
def getSuggestions (compositeStart : ℕ) (afterTokens : List RangedToken) (parts : List Part) (nodeValue : Text) :
    List (ℕ × ℕ) :=
  let ends := endsOf (compositeStart + (partsText parts).length) afterTokens compositeStart parts
  let duplicates := (parts.zip ((compositeStart :: ends).zip ends)).filter fun entry => entry.1.node = nodeValue
  duplicates.tail.map Prod.snd

/-- The ranges are in order. -/
def removeRanges (cursor : ℕ) : List (ℕ × ℕ) → Text → Text
  | [], text => text.drop cursor
  | (start, stop) :: ranges, text => (text.take start).drop cursor ++ removeRanges stop ranges text

/-! ### The ranges -/

section Ranges

variable {parts : List Part} {part : Part} {position compositeStop : ℕ} {afterTokens tokens : List RangedToken}
  {closing : List Text}

/-- A token that is not a closing parenthesis of the type. -/
def Ends (compositeStop : ℕ) (tokens : List RangedToken) : Prop :=
  ∀ next ∈ tokens.head?, next.value = [')'] → compositeStop < next.stop

theorem getEnd_of_ends (h : Ends compositeStop tokens) : getEnd position tokens compositeStop = position := by
  cases tokens with
  | nil => rfl
  | cons next tokens =>
    rw [getEnd, if_neg]
    rintro ⟨hvalue, hle⟩
    exact absurd (h next rfl hvalue) (by omega)

/-- The loop takes the parentheses of the member and no other ones. -/
theorem getEnd_closingTokens (hstop : position + (closingText closing).length ≤ compositeStop)
    (hends : Ends compositeStop tokens) :
    getEnd position (closingTokens position closing ++ tokens) compositeStop =
      position + (closingText closing).length := by
  induction closing generalizing position with
  | nil => exact getEnd_of_ends hends
  | cons gap closing ih =>
    have hlength : (closingText (gap :: closing)).length = gap.length + 1 + (closingText closing).length := by
      rw [closingText, List.flatMap_cons, List.length_append, List.length_append]
      rfl
    rw [hlength] at hstop ⊢
    rw [closingTokens, List.cons_append, getEnd]
    dsimp only
    rw [if_pos ⟨rfl, by omega⟩, ih (by omega)]
    omega

/-- The end of each member, with the parentheses. -/
def stopsOf : ℕ → List Part → List ℕ
  | _, [] => []
  | position, part :: parts => (position + part.text.length) :: stopsOf (position + part.text.length) parts

theorem endsOf_eq (hoperators : ∀ part ∈ parts.tail, part.operator ≠ [')'])
    (hstop : position + (partsText parts).length ≤ compositeStop) (hafter : Ends compositeStop afterTokens) :
    endsOf compositeStop afterTokens position parts = stopsOf position parts := by
  induction parts generalizing position with
  | nil => rfl
  | cons part parts ih =>
    have hlength : (partsText (part :: parts)).length = part.text.length + (partsText parts).length := by
      rw [partsText, List.flatMap_cons, List.length_append]
      rfl
    have htext : part.text.length = part.front.length + part.back.length := List.length_append
    have hnext : Ends compositeStop (nextTokens (position + part.text.length) afterTokens parts) := by
      cases parts with
      | nil => exact hafter
      | cons next parts =>
        intro token htoken hvalue
        cases htoken
        exact absurd hvalue (hoperators next List.mem_cons_self)
    rw [endsOf, stopsOf, ih]
    · rw [getEnd_closingTokens (by change position + part.front.length + part.back.length ≤ _; omega) hnext, htext,
        ← Nat.add_assoc]
      rfl
    · exact fun other hother => hoperators other (List.mem_of_mem_tail hother)
    · omega

end Ranges

/-! ### What is left -/

section Removal

variable {parts : List Part} {position cursor : ℕ} {text pre after nodeValue : Text}

/-- All but the elements behind the first one with a property. -/
def keepFirst {α : Type} (p : α → Bool) : List α → List α
  | [] => []
  | a :: l => if p a then a :: l.filter fun b => !p b else a :: keepFirst p l

theorem map_keepFirst {α β : Type} {f : α → β} {p : β → Bool} {l : List α} :
    keepFirst p (l.map f) = (keepFirst (fun a => p (f a)) l).map f := by
  induction l with
  | nil => rfl
  | cons a l ih =>
    rw [List.map_cons, keepFirst, keepFirst]
    split_ifs
    · rw [List.filter_map]
      rfl
    · rw [ih]
      rfl

/-- Each member with its range, from the end of the one in front. -/
def entriesOf (position : ℕ) (parts : List Part) : List (Part × ℕ × ℕ) :=
  parts.zip ((position :: stopsOf position parts).zip (stopsOf position parts))

theorem entriesOf_cons {part : Part} : entriesOf position (part :: parts) =
    (part, position, position + part.text.length) :: entriesOf (position + part.text.length) parts :=
  rfl

theorem partsText_cons {part : Part} : partsText (part :: parts) = part.text ++ partsText parts :=
  List.flatMap_cons

theorem removeRanges_filter (htext : text = pre ++ (partsText parts ++ after)) (hpre : pre.length = position)
    (hcursor : cursor ≤ position) :
    removeRanges cursor (((entriesOf position parts).filter fun entry => entry.1.node = nodeValue).map Prod.snd) text =
      pre.drop cursor ++ (partsText (parts.filter fun part => part.node ≠ nodeValue) ++ after) := by
  induction parts generalizing pre position cursor with
  | nil =>
    change text.drop cursor = pre.drop cursor ++ after
    rw [htext]
    exact List.drop_append_of_le_length (hpre ▸ hcursor)
  | cons part parts ih =>
    have htext' : text = (pre ++ part.text) ++ (partsText parts ++ after) := by
      rw [htext, partsText_cons, List.append_assoc, List.append_assoc]
    have hpre' : (pre ++ part.text).length = position + part.text.length := by
      rw [List.length_append, hpre]
    rw [entriesOf_cons, List.filter_cons, List.filter_cons]
    by_cases hnode : part.node = nodeValue
    · have htake : text.take position = pre := by rw [htext, ← hpre, List.take_left]
      rw [if_pos (decide_eq_true hnode), if_neg (by simp [hnode]), List.map_cons, removeRanges, htake,
        ih htext' hpre' (le_refl _), ← hpre', List.drop_length, List.nil_append]
    · rw [if_neg (by simp [hnode]), if_pos (by simp [hnode]), ih htext' hpre' (by omega),
        List.drop_append_of_le_length (hpre ▸ hcursor), partsText_cons]
      simp only [List.append_assoc]

/-- The text without the members that are removed. -/
theorem removeRanges_tail (htext : text = pre ++ (partsText parts ++ after)) (hpre : pre.length = position)
    (hcursor : cursor ≤ position) :
    removeRanges cursor (((entriesOf position parts).filter fun entry => entry.1.node = nodeValue).tail.map Prod.snd)
      text = pre.drop cursor ++ (partsText (keepFirst (fun part => part.node = nodeValue) parts) ++ after) := by
  induction parts generalizing pre position cursor with
  | nil =>
    change text.drop cursor = pre.drop cursor ++ after
    rw [htext]
    exact List.drop_append_of_le_length (hpre ▸ hcursor)
  | cons part parts ih =>
    have htext' : text = (pre ++ part.text) ++ (partsText parts ++ after) := by
      rw [htext, partsText_cons, List.append_assoc, List.append_assoc]
    have hpre' : (pre ++ part.text).length = position + part.text.length := by
      rw [List.length_append, hpre]
    have hdrop : (pre ++ part.text).drop cursor = pre.drop cursor ++ part.text :=
      List.drop_append_of_le_length (hpre ▸ hcursor)
    rw [entriesOf_cons, List.filter_cons, keepFirst]
    by_cases hnode : part.node = nodeValue
    · rw [if_pos (decide_eq_true hnode), if_pos (decide_eq_true hnode), List.tail_cons,
        removeRanges_filter htext' hpre' (by omega), hdrop, partsText_cons]
      simp [List.append_assoc]
    · rw [if_neg (by simp [hnode]), if_neg (by simp [hnode]), ih htext' hpre' (by omega), hdrop, partsText_cons]
      simp only [List.append_assoc]

theorem pairwise_entriesOf : (entriesOf position parts).Pairwise fun a b => a.2.2 ≤ b.2.1 := by
  have hlater : ∀ {position : ℕ} {parts : List Part}, ∀ entry ∈ entriesOf position parts, position ≤ entry.2.1 := by
    intro position parts
    induction parts generalizing position with
    | nil => nofun
    | cons part parts ih =>
      rw [entriesOf_cons, List.forall_mem_cons]
      exact ⟨le_refl _, fun entry hentry => le_trans (Nat.le_add_right _ _) (ih entry hentry)⟩
  induction parts generalizing position with
  | nil => exact .nil
  | cons part parts ih => exact .cons hlater ih

theorem getSuggestions_eq {afterTokens : List RangedToken} (hoperators : ∀ part ∈ parts.tail, part.operator ≠ [')'])
    (hafter : Ends (position + (partsText parts).length) afterTokens) :
    getSuggestions position afterTokens parts nodeValue =
      ((entriesOf position parts).filter fun entry => entry.1.node = nodeValue).tail.map Prod.snd := by
  rw [getSuggestions, endsOf_eq hoperators (le_refl _) hafter]
  rfl

/-- The removed ranges never overlap. -/
theorem pairwise_getSuggestions {afterTokens : List RangedToken}
    (hoperators : ∀ part ∈ parts.tail, part.operator ≠ [')'])
    (hafter : Ends (position + (partsText parts).length) afterTokens) :
    (getSuggestions position afterTokens parts nodeValue).Pairwise fun a b => a.2 ≤ b.1 := by
  rw [getSuggestions_eq hoperators hafter, List.pairwise_map]
  exact (pairwise_entriesOf.filter _).tail

end Removal

/-! ### Reading and parsing -/

variable {Token State Ty : Type}

/-- The parser of a member, parentheses included. It gives the tokens behind the member, where an operator is as good as
another one. -/
structure Grammar (scanner : Scanner Token State) (Ty : Type) where
  member : List (Token × Bool) → Option (Ty × List (Token × Bool))
  member_operator : ∀ {operator : Text} {tokens rest rest' : List (Token × Bool)} {next next' : Token × Bool} {type : Ty},
    operator ∈ [['|'], ['&']] → scanner.text next.1 = operator → scanner.text next'.1 = operator →
    member (tokens ++ next :: rest) = some (type, next :: rest) →
    member (tokens ++ next' :: rest') = some (type, next' :: rest')

structure Member (Token Ty : Type) where
  part : Part
  operatorToken : Option (Token × Bool)
  tokens : List (Token × Bool)
  type : Ty

/-- The tokens with the operator in front. -/
def Member.all (member : Member Token Ty) : List (Token × Bool) := member.operatorToken.toList ++ member.tokens

def membersText (members : List (Member Token Ty)) : Text := partsText (members.map Member.part)

def membersTokens (members : List (Member Token Ty)) : List (Token × Bool) := members.flatMap Member.all

variable {scanner : Scanner Token State} (grammar : Grammar scanner Ty)

/-- Members with an operator between them, up to a token that is none. -/
inductive Chain (operator : Text) : List (Token × Bool) → List Ty → List (Token × Bool) → Prop
  | last {tokens rest : List (Token × Bool)} {type : Ty} (h : grammar.member tokens = some (type, rest))
      (hstop : ∀ next ∈ rest.head?, scanner.text next.1 ≠ operator) : Chain operator tokens [type] rest
  | cons {tokens rest left : List (Token × Bool)} {next : Token × Bool} {type : Ty} {types : List Ty}
      (h : grammar.member tokens = some (type, next :: rest)) (hoperator : scanner.text next.1 = operator)
      (hrest : Chain operator rest types left) : Chain operator tokens (type :: types) left

/-- Each member is read in front of the other ones. -/
def ReadsAll (scanner : Scanner Token State) (between : State) (after : Text) : List (Member Token Ty) → Prop
  | [] => True
  | member :: members =>
    scanner.Reads between (member.part.text ++ (membersText members ++ after)) member.all between
      (membersText members ++ after) ∧ ReadsAll scanner between after members

/-- Each member is parsed in front of the other ones. -/
def ParsesAll (afterTokens : List (Token × Bool)) : List (Member Token Ty) → Prop
  | [] => True
  | member :: members =>
    grammar.member (member.tokens ++ (membersTokens members ++ afterTokens)) =
      some (member.type, membersTokens members ++ afterTokens) ∧ ParsesAll afterTokens members

/-- A union or an intersection in its program. An operator in front of the first member belongs to what is before. -/
structure Layout where
  operator : Text
  before : Text
  after : Text
  /-- White space and comments. -/
  left : Text
  first : Member Token Ty
  others : List (Member Token Ty)
  start : State
  front : State
  /-- The scanner is in the same state behind every member. -/
  between : State
  stop : State
  outer : List (Token × Bool)
  afterTokens : List (Token × Bool)
  /-- What `getTokenAfter` finds behind the type. -/
  afterRanges : List RangedToken
  operator_mem : operator ∈ [['|'], ['&']]
  first_operator : first.operatorToken = none
  others_operator : ∀ member ∈ others, member.part.operator = operator ∧ WellFormed member.part.gap ∧
    ∃ token, member.operatorToken = some token ∧ scanner.text token.1 = operator
  tokens_ne_nil : first.tokens ≠ []
  reads_outer : scanner.Reads start (before ++ (first.part.text ++ (membersText others ++ after))) outer front
    (first.part.text ++ (membersText others ++ after))
  reads_first : scanner.Reads front (first.part.text ++ (membersText others ++ after)) first.tokens between
    (membersText others ++ after)
  reads_others : ReadsAll scanner between after others
  reads_after : scanner.Reads between after afterTokens stop left
  parses : ParsesAll grammar afterTokens (first :: others)
  outer_ne_slash : ∀ last ∈ outer.getLast?, scanner.text last.1 ≠ ['/']
  stops : ∀ member ∈ first :: others, ∀ last ∈ member.all.getLast?, scanner.Stops last.1
  after_operator : ∀ next ∈ afterTokens.head?, scanner.text next.1 ≠ operator
  ends : Ends (before.length + (membersText (first :: others)).length) afterRanges

namespace Layout

variable {grammar} (layout : Layout grammar) (nodeValue : Text)

def source : Text := layout.before ++ (membersText (layout.first :: layout.others) ++ layout.after)

/-- The ranges for the members with this text. -/
def ranges : List (ℕ × ℕ) :=
  getSuggestions layout.before.length layout.afterRanges ((layout.first :: layout.others).map Member.part) nodeValue

def suggestion : Text := removeRanges 0 (layout.ranges nodeValue) layout.source

/-- The members behind the first one that stay. -/
def kept : List (Member Token Ty) :=
  if layout.first.part.node = nodeValue then
    layout.others.filter fun member => !decide (member.part.node = nodeValue)
  else keepFirst (fun member => decide (member.part.node = nodeValue)) layout.others

/-- The text is read and parsed as the program with the members that stay, in their order. -/
def Preserved : Prop :=
  scanner.Reads layout.start (layout.suggestion nodeValue)
      ((layout.outer ++ (layout.first.tokens ++ membersTokens (layout.kept nodeValue))) ++ layout.afterTokens)
      layout.stop layout.left ∧
    Chain grammar layout.operator
      (layout.first.tokens ++ (membersTokens (layout.kept nodeValue) ++ layout.afterTokens))
      ((layout.first :: layout.kept nodeValue).map Member.type) layout.afterTokens

/-- A member in front of what follows the type. -/
def Joins (state : State) (member : Member Token Ty) : Prop :=
  scanner.Reads state (member.part.text ++ layout.after) member.all layout.between layout.after ∧
    grammar.member (member.tokens ++ layout.afterTokens) = some (member.type, layout.afterTokens)

/-- The last member that stays can stand in front of what follows the type. -/
def LastJoins : Prop :=
  match (layout.kept nodeValue).getLast? with
  | none => layout.Joins layout.front layout.first
  | some last => layout.Joins layout.between last

/-! ### The text that is left -/

theorem operator_ne : layout.operator ≠ [')'] := by
  intro heq
  have hmem := layout.operator_mem
  rw [heq] at hmem
  exact absurd hmem (by decide)

theorem others_operator_ne : ∀ part ∈ ((layout.first :: layout.others).map Member.part).tail, part.operator ≠ [')'] := by
  intro part hpart
  obtain ⟨member, hmember, rfl⟩ := List.mem_map.mp hpart
  rw [(layout.others_operator member hmember).1]
  exact layout.operator_ne

theorem keepFirst_members : keepFirst (fun member => decide (member.part.node = nodeValue))
    (layout.first :: layout.others) = layout.first :: layout.kept nodeValue := by
  rw [keepFirst, kept]
  by_cases hfirst : layout.first.part.node = nodeValue
  · rw [if_pos hfirst, if_pos (decide_eq_true hfirst)]
  · rw [if_neg hfirst, if_neg (by simp [hfirst])]

theorem membersText_cons {member : Member Token Ty} {members : List (Member Token Ty)} :
    membersText (member :: members) = member.part.text ++ membersText members :=
  List.flatMap_cons

theorem suggestion_eq : layout.suggestion nodeValue =
    layout.before ++ (layout.first.part.text ++ (membersText (layout.kept nodeValue) ++ layout.after)) := by
  have hranges := @getSuggestions_eq ((layout.first :: layout.others).map Member.part) layout.before.length nodeValue
    layout.afterRanges layout.others_operator_ne layout.ends
  have hremove := @removeRanges_tail ((layout.first :: layout.others).map Member.part) layout.before.length 0
    layout.source layout.before layout.after nodeValue rfl rfl (Nat.zero_le _)
  rw [suggestion, ranges, hranges, hremove, List.drop_zero, map_keepFirst, keepFirst_members]
  change layout.before ++ (membersText (layout.first :: layout.kept nodeValue) ++ layout.after) = _
  rw [membersText_cons, List.append_assoc]

theorem keepFirst_sublist {α : Type} (p : α → Bool) (l : List α) : (keepFirst p l).Sublist l := by
  induction l with
  | nil => exact .slnil
  | cons a l ih =>
    rw [keepFirst]
    split_ifs
    · exact List.filter_sublist.cons_cons a
    · exact ih.cons_cons a

theorem kept_sublist : (layout.kept nodeValue).Sublist layout.others := by
  rw [kept]
  split_ifs
  · exact List.filter_sublist
  · exact keepFirst_sublist _ _

/-! ### Reading -/

theorem boundary_text {member : Member Token Ty} (hmember : member ∈ layout.others) (rest : Text) :
    Boundary (member.part.text ++ rest) := by
  obtain ⟨hoperator, hgap, -⟩ := layout.others_operator member hmember
  rw [Part.text, Part.front, hoperator]
  cases hpieces : member.part.gap with
  | nil =>
    have hmem := layout.operator_mem
    simp only [List.mem_cons, List.not_mem_nil, or_false] at hmem
    rcases hmem with hmem | hmem <;> rw [hmem]
    · exact Or.inr (Or.inr (Or.inl (by decide)))
    · exact Or.inr (Or.inr (Or.inl (by decide)))
  | cons piece pieces =>
    rw [hpieces] at hgap
    rw [textOf, List.flatMap_cons]
    simp only [List.append_assoc]
    exact boundary_of_piece hgap.1 _

theorem stops_tokens {member : Member Token Ty} (hmember : member ∈ layout.first :: layout.others) :
    ∀ last ∈ member.all.getLast?, scanner.text last.1 ≠ ['/'] :=
  fun last hlast => scanner.text_ne_slash (layout.stops member hmember last hlast)

theorem first_all : layout.first.all = layout.first.tokens := by
  rw [Member.all, layout.first_operator]
  rfl

theorem exists_reads_of_all {between : State} {after : Text} {members : List (Member Token Ty)}
    (h : ReadsAll scanner between after members) : ∀ member ∈ members, ∃ left,
      scanner.Reads between (member.part.text ++ left) member.all between left := by
  induction members with
  | nil => nofun
  | cons member members ih =>
    rw [List.forall_mem_cons]
    exact ⟨⟨membersText members ++ after, h.1⟩, ih h.2⟩

theorem exists_reads {member : Member Token Ty} (hmember : member ∈ layout.others) : ∃ left,
    scanner.Reads layout.between (member.part.text ++ left) member.all layout.between left :=
  exists_reads_of_all layout.reads_others member hmember

/-- In front of another member, a member is read as before. -/
theorem boundary_membersText {members : List (Member Token Ty)} (hmembers : ∀ member ∈ members, member ∈ layout.others)
    (hne : members ≠ []) : Boundary (membersText members ++ layout.after) := by
  obtain ⟨next, members, rfl⟩ := List.exists_cons_of_ne_nil hne
  rw [membersText_cons, List.append_assoc]
  exact layout.boundary_text (hmembers next List.mem_cons_self) _

theorem membersTokens_cons {member : Member Token Ty} {members : List (Member Token Ty)} :
    membersTokens (member :: members) = member.all ++ membersTokens members :=
  List.flatMap_cons

theorem reads_members {members : List (Member Token Ty)} (hmembers : ∀ member ∈ members, member ∈ layout.others) :
    scanner.Reads layout.between (membersText members ++ layout.after) (membersTokens members) layout.between
        layout.after ↔
      ∀ last ∈ members.getLast?,
        scanner.Reads layout.between (last.part.text ++ layout.after) last.all layout.between layout.after := by
  induction members with
  | nil => exact ⟨fun _ => nofun, fun _ => .nil⟩
  | cons member members ih =>
    rw [List.forall_mem_cons] at hmembers
    rw [membersText_cons, membersTokens_cons, List.append_assoc]
    by_cases hne : members = []
    · subst hne
      change scanner.Reads _ (member.part.text ++ layout.after) (member.all ++ []) _ _ ↔ _
      rw [List.append_nil, List.getLast?_singleton]
      exact ⟨fun h last hlast => by cases hlast; exact h, fun h => h member rfl⟩
    · obtain ⟨left, hreads⟩ := layout.exists_reads hmembers.1
      have hstops := layout.stops member (List.mem_cons_of_mem _ hmembers.1)
      have hboundary := layout.boundary_membersText hmembers.2 hne
      rw [List.getLast?_cons, List.getLast?_eq_some_getLast hne, Option.getD_some,
        ← List.getLast?_eq_some_getLast hne, ← ih hmembers.2]
      constructor
      · intro h
        obtain ⟨s, rest, hmember, hothers⟩ := h.split
        obtain ⟨rfl, rfl⟩ := hreads.align (fun last hlast => scanner.text_ne_slash (hstops last hlast)) hmember
        exact hothers
      · exact (hreads.change_boundary hstops hboundary).append

/-- The members are read as before if the last one is. -/
theorem reads_first_iff {members : List (Member Token Ty)} (hmembers : ∀ member ∈ members, member ∈ layout.others) :
    scanner.Reads layout.front (layout.first.part.text ++ (membersText members ++ layout.after))
        (layout.first.tokens ++ membersTokens members) layout.between layout.after ↔
      match members.getLast? with
      | none => scanner.Reads layout.front (layout.first.part.text ++ layout.after) layout.first.all layout.between
          layout.after
      | some last =>
        scanner.Reads layout.between (last.part.text ++ layout.after) last.all layout.between layout.after := by
  by_cases hne : members = []
  · subst hne
    change scanner.Reads _ (layout.first.part.text ++ layout.after) (layout.first.tokens ++ []) _ _ ↔ _
    rw [List.append_nil, ← layout.first_all]
    rfl
  · have hstops := layout.stops layout.first List.mem_cons_self
    rw [layout.first_all] at hstops
    have hboundary := layout.boundary_membersText hmembers hne
    have hlast := layout.reads_members hmembers
    rw [List.getLast?_eq_some_getLast hne] at hlast ⊢
    simp only [Option.mem_some_iff, forall_eq'] at hlast
    refine Iff.trans ?_ hlast
    constructor
    · intro h
      obtain ⟨s, rest, hfirst, hothers⟩ := h.split
      obtain ⟨rfl, rfl⟩ :=
        layout.reads_first.align (fun last hmem => scanner.text_ne_slash (hstops last hmem)) hfirst
      exact hothers
    · exact (layout.reads_first.change_boundary hstops hboundary).append

/-- What is in front of the type is read as before. -/
theorem reads_outer_iff {members : List (Member Token Ty)} :
    scanner.Reads layout.start
        (layout.before ++ (layout.first.part.text ++ (membersText members ++ layout.after)))
        (layout.outer ++ (layout.first.tokens ++ membersTokens members)) layout.between layout.after ↔
      scanner.Reads layout.front (layout.first.part.text ++ (membersText members ++ layout.after))
        (layout.first.tokens ++ membersTokens members) layout.between layout.after := by
  have hslash := layout.stops_tokens List.mem_cons_self
  rw [layout.first_all] at hslash
  constructor
  · intro h
    obtain ⟨s, rest, houter, htype⟩ := h.split
    obtain ⟨rfl, rfl⟩ := layout.reads_outer.align layout.outer_ne_slash houter
    exact htype
  · intro h
    obtain ⟨s, rest, hfirst, -⟩ := h.split
    obtain ⟨rfl, rfl⟩ := layout.reads_first.align hslash hfirst
    exact (layout.reads_outer.change_next layout.outer_ne_slash layout.tokens_ne_nil hslash layout.reads_first
      hfirst).append h

theorem align_members {members : List (Member Token Ty)} (hmembers : ∀ member ∈ members, member ∈ layout.others)
    {s : State} {rest : Text}
    (h : scanner.Reads layout.between (membersText members ++ layout.after) (membersTokens members) s rest) :
    s = layout.between ∧ rest = layout.after := by
  induction members with
  | nil =>
    cases h
    exact ⟨rfl, rfl⟩
  | cons member members ih =>
    rw [List.forall_mem_cons] at hmembers
    rw [membersText_cons, membersTokens_cons, List.append_assoc] at h
    obtain ⟨left, hreads⟩ := layout.exists_reads hmembers.1
    obtain ⟨s', rest', hmember, hothers⟩ := h.split
    obtain ⟨rfl, rfl⟩ := hreads.align (layout.stops_tokens (List.mem_cons_of_mem _ hmembers.1)) hmember
    exact ih hmembers.2 hothers

/-- The type ends where it ended before. -/
theorem reads_after_iff {members : List (Member Token Ty)} (hmembers : ∀ member ∈ members, member ∈ layout.others) :
    scanner.Reads layout.start (layout.before ++ (layout.first.part.text ++ (membersText members ++ layout.after)))
        ((layout.outer ++ (layout.first.tokens ++ membersTokens members)) ++ layout.afterTokens) layout.stop
        layout.left ↔
      scanner.Reads layout.start (layout.before ++ (layout.first.part.text ++ (membersText members ++ layout.after)))
        (layout.outer ++ (layout.first.tokens ++ membersTokens members)) layout.between layout.after := by
  have hslash := layout.stops_tokens List.mem_cons_self
  rw [layout.first_all] at hslash
  constructor
  · intro h
    obtain ⟨s, rest, htype, -⟩ := h.split
    obtain ⟨s', rest', houter, hfirst⟩ := htype.split
    obtain ⟨rfl, rfl⟩ := layout.reads_outer.align layout.outer_ne_slash houter
    obtain ⟨s', rest', hfirst, hothers⟩ := hfirst.split
    obtain ⟨rfl, rfl⟩ := layout.reads_first.align hslash hfirst
    obtain ⟨rfl, rfl⟩ := layout.align_members hmembers hothers
    exact htype
  · exact fun h => h.append layout.reads_after

/-! ### Parsing -/

/-- In front of an operator. -/
def ParsesFirst (grammar : Grammar scanner Ty) (operator : Text) (member : Member Token Ty) : Prop :=
  ∃ next rest, scanner.text next.1 = operator ∧
    grammar.member (member.tokens ++ next :: rest) = some (member.type, next :: rest)

theorem parsesFirst_of_all {operator : Text} {afterTokens : List (Token × Bool)} {members : List (Member Token Ty)}
    (hoperators : ∀ member ∈ members.tail, ∃ token, member.operatorToken = some token ∧ scanner.text token.1 = operator)
    (h : ParsesAll grammar afterTokens members) : ∀ member ∈ members.dropLast, ParsesFirst grammar operator member := by
  induction members with
  | nil => nofun
  | cons member members ih =>
    cases members with
    | nil => nofun
    | cons next members =>
      obtain ⟨hmember, hmembers⟩ := h
      rw [List.tail_cons, List.forall_mem_cons] at hoperators
      obtain ⟨⟨token, htoken, htext⟩, hoperators⟩ := hoperators
      rw [List.dropLast_cons_cons, List.forall_mem_cons]
      refine ⟨⟨token, next.tokens ++ (membersTokens members ++ afterTokens), htext, ?_⟩, ih hoperators hmembers⟩
      rw [membersTokens_cons, Member.all, htoken] at hmember
      simpa using hmember

theorem sublist_dropLast {α : Type} {l l' : List α} (h : l.Sublist l') : l.dropLast.Sublist l'.dropLast := by
  rw [← List.reverse_sublist, ← List.tail_reverse, ← List.tail_reverse]
  exact (List.reverse_sublist.mpr h).tail

/-- The members are parsed as before if the last one is. -/
theorem chain_iff {member : Member Token Ty} {members : List (Member Token Ty)} (hmembers : ∀ member ∈ members,
    ∃ token, member.operatorToken = some token ∧ scanner.text token.1 = layout.operator)
    (hfirst : ∀ other ∈ (member :: members).dropLast, ParsesFirst grammar layout.operator other) :
    Chain grammar layout.operator (member.tokens ++ (membersTokens members ++ layout.afterTokens))
        ((member :: members).map Member.type) layout.afterTokens ↔
      ∀ last ∈ (member :: members).getLast?,
        grammar.member (last.tokens ++ layout.afterTokens) = some (last.type, layout.afterTokens) := by
  induction members generalizing member with
  | nil =>
    simp only [List.getLast?_singleton, Option.mem_some_iff, forall_eq']
    constructor
    · intro h
      cases h with
      | last h hstop => exact h
      | cons h hoperator hrest => cases hrest
    · exact fun h => .last h layout.after_operator
  | cons next members ih =>
    rw [List.forall_mem_cons] at hmembers
    obtain ⟨⟨token, htoken, htext⟩, hmembers⟩ := hmembers
    rw [List.dropLast_cons_cons, List.forall_mem_cons] at hfirst
    obtain ⟨⟨token', rest', htext', hparses⟩, hfirst⟩ := hfirst
    have hparses' : grammar.member (member.tokens ++
        token :: (next.tokens ++ (membersTokens members ++ layout.afterTokens))) =
          some (member.type, token :: (next.tokens ++ (membersTokens members ++ layout.afterTokens))) :=
      grammar.member_operator layout.operator_mem htext' htext hparses
    have htokens : membersTokens (next :: members) ++ layout.afterTokens =
        token :: (next.tokens ++ (membersTokens members ++ layout.afterTokens)) := by
      rw [membersTokens_cons, Member.all, htoken]
      simp
    rw [List.getLast?_cons_cons, ← ih hmembers hfirst, htokens]
    constructor
    · intro h
      cases h with
      | cons h hoperator hrest =>
        obtain ⟨-, heq⟩ := Prod.mk.inj (Option.some.inj (h.symm.trans hparses'))
        obtain ⟨-, rfl⟩ := List.cons.inj heq
        exact hrest
    · exact fun h => .cons hparses' htext h

/-! ### The suggestion -/

theorem getLast?_kept {members : List (Member Token Ty)} {p : Member Token Ty → Prop} :
    (∀ last ∈ (layout.first :: members).getLast?, p last) ↔
      match members.getLast? with
      | none => p layout.first
      | some last => p last := by
  rw [List.getLast?_cons]
  cases members.getLast? with
  | none => simp
  | some last => simp

theorem preserved_of_lastJoins_iff : layout.Preserved nodeValue ↔ layout.LastJoins nodeValue := by
  have hsub := layout.kept_sublist nodeValue
  have hmembers : ∀ member ∈ layout.kept nodeValue, member ∈ layout.others := fun _ hmember => hsub.subset hmember
  have hoperators : ∀ member ∈ layout.others,
      ∃ token, member.operatorToken = some token ∧ scanner.text token.1 = layout.operator :=
    fun member hmember => (layout.others_operator member hmember).2.2
  have hfirst : ∀ other ∈ (layout.first :: layout.kept nodeValue).dropLast,
      ParsesFirst grammar layout.operator other := fun other hother =>
    parsesFirst_of_all hoperators layout.parses other ((sublist_dropLast (hsub.cons_cons layout.first)).subset hother)
  rw [Preserved, suggestion_eq, reads_after_iff layout hmembers, reads_outer_iff, reads_first_iff layout hmembers,
    layout.chain_iff (fun member hmember => hoperators member (hmembers member hmember)) hfirst, getLast?_kept, LastJoins]
  cases (layout.kept nodeValue).getLast? with
  | none => rfl
  | some last => rfl

theorem reads_last_of_all {between : State} {after : Text} {members : List (Member Token Ty)}
    (h : ReadsAll scanner between after members) : ∀ last ∈ members.getLast?,
      scanner.Reads between (last.part.text ++ after) last.all between after := by
  induction members with
  | nil => nofun
  | cons member members ih =>
    cases members with
    | nil =>
      intro last hlast
      cases hlast
      exact h.1
    | cons next members =>
      rw [List.getLast?_cons_cons]
      exact ih h.2

theorem parses_last_of_all {afterTokens : List (Token × Bool)} {members : List (Member Token Ty)}
    (h : ParsesAll grammar afterTokens members) : ∀ last ∈ members.getLast?,
      grammar.member (last.tokens ++ afterTokens) = some (last.type, afterTokens) := by
  induction members with
  | nil => nofun
  | cons member members ih =>
    cases members with
    | nil =>
      intro last hlast
      cases hlast
      exact h.1
    | cons next members =>
      rw [List.getLast?_cons_cons]
      exact ih h.2

/-- The ranges never overlap, and what is left is the type with the members that stay. It is read and parsed so if and
only if the last one of them can stand where the type ends. -/
theorem duplicates_removed_iff : (layout.ranges nodeValue).Pairwise (fun a b => a.2 ≤ b.1) ∧
    layout.suggestion nodeValue =
      layout.before ++ (membersText (keepFirst (fun member => decide (member.part.node = nodeValue))
        (layout.first :: layout.others)) ++ layout.after) ∧
    (layout.Preserved nodeValue ↔ layout.LastJoins nodeValue) := by
  refine ⟨pairwise_getSuggestions layout.others_operator_ne layout.ends, ?_, layout.preserved_of_lastJoins_iff nodeValue⟩
  rw [suggestion_eq, keepFirst_members, membersText_cons, List.append_assoc]

end Layout

/-! ### Without the last member -/

/-- A word or an empty tuple type. -/
def wordMember : List ((Char × Text) × Bool) → Option (Text × List ((Char × Text) × Bool))
  | [] => none
  | token :: tokens =>
    if isWord token.1.1 then some (token.1.1 :: token.1.2, tokens)
    else if token.1 = ('[', []) ∧ tokens.head?.map Prod.fst = some (']', []) then some ("[]".toList, tokens.tail)
    else none

theorem wordMember_operator {tokens rest rest' : List ((Char × Text) × Bool)} {next next' : (Char × Text) × Bool}
    {type : Text} (hword : isWord next.1.1 = false) (hopen : next.1.1 ≠ '[') (hclose : next.1.1 ≠ ']')
    (h : wordMember (tokens ++ next :: rest) = some (type, next :: rest)) :
    wordMember (tokens ++ next' :: rest') = some (type, next' :: rest') := by
  match tokens with
  | [] =>
    rw [List.nil_append, wordMember, hword, if_neg Bool.false_ne_true, if_neg fun hnext => hopen (congrArg Prod.fst hnext.1)] at h
    cases h
  | [token] =>
    rw [List.singleton_append, wordMember] at h ⊢
    split_ifs at h with hc hnext
    · cases h
      rw [if_pos hc]
    · exact absurd (congrArg Prod.fst (Option.some.inj hnext.2)) hclose
  | token :: token' :: tokens =>
    rw [List.cons_append, wordMember] at h ⊢
    split_ifs at h with hc hnext
    · have hlength := congrArg List.length (Prod.mk.inj (Option.some.inj h)).2
      simp only [List.length_append, List.length_cons] at hlength
      omega
    · obtain ⟨rfl, htokens⟩ := Prod.mk.inj (Option.some.inj h)
      obtain rfl : tokens = [] := List.append_left_eq_self.mp htokens
      rw [if_neg hc]
      exact if_pos hnext

/-- Types of one word, and the empty tuple type. -/
def wordGrammar : Grammar words Text where
  member := wordMember
  member_operator := by
    rintro operator tokens rest rest' ⟨⟨c, others⟩, newline⟩ next' type hoperator hnext - h
    simp only [List.mem_cons, List.not_mem_nil, or_false] at hoperator
    rcases hoperator with rfl | rfl
    · obtain ⟨rfl, rfl⟩ := List.cons.inj hnext
      exact wordMember_operator rfl (show '|' ≠ '[' by decide) (show '|' ≠ ']' by decide) h
    · obtain ⟨rfl, rfl⟩ := List.cons.inj hnext
      exact wordMember_operator rfl (show '&' ≠ '[' by decide) (show '&' ≠ ']' by decide) h

/-- `type T = A | B | A` -/
def wordLayout : Layout wordGrammar where
  operator := ['|']
  before := "type T =".toList
  after := []
  left := []
  first := ⟨⟨[], [], [], " ".toList, "A".toList, [], rfl⟩, none, [(('A', []), false)], "A".toList⟩
  others := [
    ⟨⟨[.blank ' '], ['|'], [], " ".toList, "B".toList, [], rfl⟩, some (('|', []), false), [(('B', []), false)],
      "B".toList⟩,
    ⟨⟨[.blank ' '], ['|'], [], " ".toList, "A".toList, [], rfl⟩, some (('|', []), false), [(('A', []), false)],
      "A".toList⟩]
  start := ()
  front := ()
  between := ()
  stop := ()
  outer := [(('t', "ype".toList), false), (('T', []), false), (('=', []), false)]
  afterTokens := []
  afterRanges := []
  operator_mem := List.mem_cons_self
  first_operator := rfl
  others_operator := by
    intro member hmember
    simp only [List.mem_cons, List.not_mem_nil, or_false] at hmember
    rcases hmember with rfl | rfl
    · exact ⟨rfl, ⟨rfl, nofun, trivial⟩, _, rfl, rfl⟩
    · exact ⟨rfl, ⟨rfl, nofun, trivial⟩, _, rfl, rfl⟩
  tokens_ne_nil := List.cons_ne_nil _ _
  reads_outer := .of_scan rfl rfl (.of_scan rfl rfl (.of_scan rfl rfl .nil))
  reads_first := .of_scan rfl rfl .nil
  reads_others := ⟨.of_scan rfl rfl (.of_scan rfl rfl .nil), .of_scan rfl rfl (.of_scan rfl rfl .nil), trivial⟩
  reads_after := .nil
  parses := ⟨rfl, rfl, rfl, trivial⟩
  outer_ne_slash last hlast := by
    cases hlast
    decide
  stops := by
    intro member hmember last hlast heq
    simp only [List.mem_cons, List.not_mem_nil, or_false] at hmember
    rcases hmember with rfl | rfl | rfl
    all_goals
      cases hlast
      cases heq
  after_operator next hnext := by cases hnext
  ends next hnext hvalue := by cases hnext

/-- `type T = A | B` is left. -/
theorem wordLayout_preserved : wordLayout.Preserved "A".toList := by
  have hjoins : wordLayout.LastJoins "A".toList := ⟨.of_scan rfl rfl (.of_scan rfl rfl .nil), rfl⟩
  exact (Layout.duplicates_removed_iff wordLayout "A".toList).2.2.mpr hjoins

/-- `type T = [] | B | []extends B ? 1 : 2`. -/
def emptyTupleLayout : Layout wordGrammar where
  operator := ['|']
  before := "type T =".toList
  after := "extends B ? 1 : 2".toList
  left := []
  first := ⟨⟨[], [], [], " ".toList, "[]".toList, [], rfl⟩, none, [(('[', []), false), ((']', []), false)], "[]".toList⟩
  others := [
    ⟨⟨[.blank ' '], ['|'], [], " ".toList, "B".toList, [], rfl⟩, some (('|', []), false), [(('B', []), false)],
      "B".toList⟩,
    ⟨⟨[.blank ' '], ['|'], [], " ".toList, "[]".toList, [], rfl⟩, some (('|', []), false),
      [(('[', []), false), ((']', []), false)], "[]".toList⟩]
  start := ()
  front := ()
  between := ()
  stop := ()
  outer := [(('t', "ype".toList), false), (('T', []), false), (('=', []), false)]
  afterTokens := [(('e', "xtends".toList), false), (('B', []), false), (('?', []), false), (('1', []), false),
    ((':', []), false), (('2', []), false)]
  afterRanges := [⟨"extends".toList, 20, 27⟩]
  operator_mem := List.mem_cons_self
  first_operator := rfl
  others_operator := by
    intro member hmember
    simp only [List.mem_cons, List.not_mem_nil, or_false] at hmember
    rcases hmember with rfl | rfl
    · exact ⟨rfl, ⟨rfl, nofun, trivial⟩, _, rfl, rfl⟩
    · exact ⟨rfl, ⟨rfl, nofun, trivial⟩, _, rfl, rfl⟩
  tokens_ne_nil := List.cons_ne_nil _ _
  reads_outer := .of_scan rfl rfl (.of_scan rfl rfl (.of_scan rfl rfl .nil))
  reads_first := .of_scan rfl rfl (.of_scan rfl rfl .nil)
  reads_others := ⟨.of_scan rfl rfl (.of_scan rfl rfl .nil),
    .of_scan rfl rfl (.of_scan rfl rfl (.of_scan rfl rfl .nil)), trivial⟩
  reads_after := .of_scan rfl rfl (.of_scan rfl rfl (.of_scan rfl rfl (.of_scan rfl rfl (.of_scan rfl rfl
    (.of_scan rfl rfl .nil)))))
  parses := ⟨rfl, rfl, rfl, trivial⟩
  outer_ne_slash last hlast := by
    cases hlast
    decide
  stops := by
    intro member hmember last hlast heq
    simp only [List.mem_cons, List.not_mem_nil, or_false] at hmember
    rcases hmember with rfl | rfl | rfl
    all_goals
      cases hlast
      cases heq
  after_operator next hnext := by
    cases hnext
    decide
  ends next hnext hvalue := by
    cases hnext
    cases hvalue

theorem removed_tuple_joins_words : ¬ ∀ (Token State Ty : Type) (scanner : Scanner Token State)
    (grammar : Grammar scanner Ty) (layout : Layout grammar) (nodeValue : Text), layout.Preserved nodeValue := by
  intro h
  have hpreserved := h _ _ _ words wordGrammar emptyTupleLayout "[]".toList
  rw [Layout.preserved_of_lastJoins_iff] at hpreserved
  obtain ⟨hreads, -⟩ := hpreserved
  have hjoined : words.Reads () " | Bextends B ? 1 : 2".toList [(('|', []), false), (('B', "extends".toList), false)]
      () " B ? 1 : 2".toList := .of_scan rfl rfl (.of_scan rfl rfl .nil)
  obtain ⟨htokens, -⟩ := hreads.unique hjoined rfl
  cases htokens

end SonarJavascript.Rules.DuplicateTypes
