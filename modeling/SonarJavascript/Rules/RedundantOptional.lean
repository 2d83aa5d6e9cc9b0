import Mathlib.Data.List.Sort
import Mathlib.Data.List.Infix

/-!
# Optional properties with the type `undefined`

S4782 suggests to remove `undefined` from a union type. Parentheses belong to no node, so the ranges of the neighbours leave
them where they are: the suggestion is right if and only if they match those of the neighbour, or if the union of two that
is replaced is not put without its parentheses where they are needed (`type_preserved_iff`).
-/

namespace SonarJavascript.Rules.RedundantOptional

/-! ### Types -/

inductive Token (Other : Type)
  | opening
  | closing
  | bar
  | undefined
  /-- All tokens of a type that is neither a union nor `undefined`. -/
  | other (type : Other)
  | colon
  /-- A token of the rest of the program. -/
  | outside (id : ℕ)
  deriving DecidableEq

/-- Types as they are written. -/
inductive TypeNode (Other : Type)
  | undefined
  | other (type : Other)
  | parenthesized (type : TypeNode Other)
  /-- With or without an operator in front of the first one. -/
  | union (leading : Bool) (types : List (TypeNode Other))

/-- Some types cannot stand in a union without parentheses: function, constructor and conditional types. The constraint of
`infer` goes on behind an operator. -/
structure Grammar (Other : Type) where
  Last : Other → Prop
  BeforeOperator : Other → Prop
  last_of_beforeOperator : ∀ {type}, BeforeOperator type → Last type

variable {Other : Type}

/-- Without the first operator. -/
def unlessLeading (leading : Bool) (tokens : List (Token Other)) : List (Token Other) :=
  if leading then tokens else tokens.tail

namespace TypeNode

mutual

def tokens : TypeNode Other → List (Token Other)
  | undefined => [.undefined]
  | other type => [.other type]
  | parenthesized type => .opening :: (type.tokens ++ [.closing])
  | union leading types => unlessLeading leading (memberTokens types)

/-- Each member with an operator in front of it. -/
def memberTokens : List (TypeNode Other) → List (Token Other)
  | [] => []
  | type :: types => .bar :: (type.tokens ++ memberTokens types)

end

mutual

/-- The members of the type, where `none` is `undefined`. -/
def members : TypeNode Other → List (Option Other)
  | undefined => [none]
  | other type => [some type]
  | parenthesized type => type.members
  | union _ types => allMembers types

def allMembers : List (TypeNode Other) → List (Option Other)
  | [] => []
  | type :: types => type.members ++ allMembers types

end

/-- Whether it can be a member, with an operator behind it or not. -/
def Fits (grammar : Grammar Other) (next : Bool) : TypeNode Other → Prop
  | undefined | parenthesized _ => True
  | other type => if next then grammar.BeforeOperator type else grammar.Last type
  | union _ _ => False

mutual

/-- What the parser accepts. -/
def Valid (grammar : Grammar Other) : TypeNode Other → Prop
  | undefined | other _ => True
  | parenthesized type => type.Valid grammar
  | union leading types => (types ≠ [] ∧ (leading ∨ 2 ≤ types.length)) ∧ AllValid grammar false types

/-- With an operator behind the last one or not. -/
def AllValid (grammar : Grammar Other) (next : Bool) : List (TypeNode Other) → Prop
  | [] => True
  | type :: types => (type.Valid grammar ∧ type.Fits grammar (!types.isEmpty || next)) ∧ AllValid grammar next types

end

/-- The node, without parentheses. -/
def strip : TypeNode Other → TypeNode Other
  | parenthesized type => type.strip
  | type => type

def parentheses : TypeNode Other → ℕ
  | parenthesized type => type.parentheses + 1
  | _ => 0

def wrap : ℕ → TypeNode Other → TypeNode Other
  | 0, type => type
  | n + 1, type => parenthesized (wrap n type)

end TypeNode

def Token.isOpening : Token Other → Bool
  | opening => true
  | _ => false

def Token.isClosing : Token Other → Bool
  | closing => true
  | _ => false

/-! ### The rule -/

/-- A union with a hole in parentheses. -/
structure Frame (Other : Type) where
  leading : Bool
  before : List (TypeNode Other)
  parentheses : ℕ
  after : List (TypeNode Other)

namespace Frame

def plug (frame : Frame Other) (type : TypeNode Other) : TypeNode Other :=
  .union frame.leading (frame.before ++ .wrap frame.parentheses type :: frame.after)

end Frame

/-- The unions around, from the inside. -/
def restore (frames : List (Frame Other)) (type : TypeNode Other) : TypeNode Other :=
  frames.foldl (fun type frame => frame.plug type) type

mutual

/-- The parentheses around the type and the unions around the first `undefined`. -/
def getUndefinedTypeNode : TypeNode Other → Option (ℕ × List (Frame Other))
  | .undefined => some (0, [])
  | .other _ => none
  | .parenthesized type => (getUndefinedTypeNode type).map fun (n, frames) => (n + 1, frames)
  | .union leading types => (findUndefined leading [] types).map (0, ·)

/-- With the members in front. -/
def findUndefined (leading : Bool) (before : List (TypeNode Other)) :
    List (TypeNode Other) → Option (List (Frame Other))
  | [] => none
  | type :: after =>
    match getUndefinedTypeNode type with
    | some (n, frames) => some (frames ++ [⟨leading, before, n, after⟩])
    | none => findUndefined leading (before ++ [type]) after

end

/-- Tokens in place of those from one position to another. -/
structure Fix (Other : Type) where
  start : ℕ
  stop : ℕ
  text : List (Token Other)

/-- The range of each type. -/
def typeRanges (position : ℕ) : List (TypeNode Other) → List (ℕ × ℕ)
  | [] => []
  | type :: types =>
    (position + type.parentheses, position + type.parentheses + type.strip.tokens.length) ::
      typeRanges (position + type.tokens.length + 1) types

/-- The suggestion for a union with `undefined`, at a position of the program. A union of one makes it fail. -/
def getUndefinedRemovalSuggestion (program : List (Token Other)) (position : ℕ) (union : Frame Other) :
    Option (List (Fix Other)) :=
  let unionType := union.plug .undefined
  let types := union.before ++ .wrap union.parentheses .undefined :: union.after
  let ranges := typeRanges (position + if union.leading then 1 else 0) types
  let index := union.before.length
  if types.length = 2 then do
    let otherType ← if index = 0 then types[1]? else types[0]?
    let stop := position + unionType.tokens.length
    let replaced : Fix Other := ⟨position, stop, otherType.strip.tokens⟩
    if (program[position - 1]?).any Token.isOpening && (program[stop]?).any Token.isClosing then
      return [replaced, ⟨position - 1, position, []⟩, ⟨stop, stop + 1, []⟩]
    else return [replaced]
  else do
    let undefinedType ← ranges[index]?
    if index = 0 then
      let next ← ranges[1]?
      return [⟨undefinedType.1, next.1, []⟩]
    else
      let previous ← ranges[index - 1]?
      return [⟨previous.2, undefinedType.2, []⟩]

/-- Fixes in order. -/
def applyFixes (cursor : ℕ) : List (Fix Other) → List (Token Other) → List (Token Other)
  | [], program => program.drop cursor
  | fix :: fixes, program => (program.take fix.start).drop cursor ++ (fix.text ++ applyFixes fix.stop fixes program)

def mergeFixes (fixes : List (Fix Other)) (program : List (Token Other)) : List (Token Other) :=
  applyFixes 0 (fixes.insertionSort fun a b => a.start ≤ b.start) program

/-! ### Tokens of a type in its unions -/

section Tokens

variable {type : TypeNode Other} {types types' : List (TypeNode Other)} {tokens tokens' : List (Token Other)} {n : ℕ}
  {leading : Bool} {frame : Frame Other} {frames : List (Frame Other)}

theorem unlessLeading_append (hne : tokens ≠ []) :
    unlessLeading leading (tokens ++ tokens') = unlessLeading leading tokens ++ tokens' := by
  cases leading with
  | true => rfl
  | false => exact List.tail_append_of_ne_nil hne

namespace TypeNode

theorem memberTokens_append : memberTokens (types ++ types') = memberTokens types ++ memberTokens types' := by
  induction types with
  | nil => rfl
  | cons type types ih =>
    rw [List.cons_append, memberTokens, memberTokens, ih, List.cons_append, List.append_assoc]

theorem allMembers_append : allMembers (types ++ types') = allMembers types ++ allMembers types' := by
  induction types with
  | nil => rfl
  | cons type types ih => rw [List.cons_append, allMembers, allMembers, ih, List.append_assoc]

theorem tokens_wrap : (wrap n type).tokens =
    List.replicate n .opening ++ (type.tokens ++ List.replicate n .closing) := by
  induction n with
  | zero => exact (List.append_nil _).symm
  | succ n ih =>
    rw [wrap, tokens, ih, List.replicate_succ, List.replicate_succ']
    simp only [List.cons_append, List.append_assoc]

theorem members_wrap : (wrap n type).members = type.members := by
  induction n with
  | zero => rfl
  | succ n ih => exact ih

theorem valid_wrap {grammar : Grammar Other} : (wrap n type).Valid grammar ↔ type.Valid grammar := by
  induction n with
  | zero => rfl
  | succ n ih => exact ih

theorem wrap_strip : ∀ type : TypeNode Other, wrap type.parentheses type.strip = type
  | parenthesized type => congrArg parenthesized (wrap_strip type)
  | undefined => rfl
  | other _ => rfl
  | union _ _ => rfl

theorem tokens_strip : List.replicate type.parentheses .opening ++
    (type.strip.tokens ++ List.replicate type.parentheses .closing) = type.tokens := by
  rw [← tokens_wrap, wrap_strip]

theorem strip_wrap : (wrap n type).strip = type.strip := by
  induction n with
  | zero => rfl
  | succ n ih => exact ih

theorem parentheses_wrap : (wrap n type).parentheses = n + type.parentheses := by
  induction n with
  | zero => exact (Nat.zero_add _).symm
  | succ n ih =>
    rw [wrap, parentheses, ih]
    omega

end TypeNode

namespace Frame

variable (frame)

def front : List (Token Other) :=
  unlessLeading frame.leading (TypeNode.memberTokens frame.before ++ [.bar]) ++
    List.replicate frame.parentheses .opening

def back : List (Token Other) :=
  List.replicate frame.parentheses .closing ++ TypeNode.memberTokens frame.after

variable {frame}

theorem tokens_plug : (frame.plug type).tokens = frame.front ++ (type.tokens ++ frame.back) := by
  have hsplit : TypeNode.memberTokens (frame.before ++ .wrap frame.parentheses type :: frame.after) =
      (TypeNode.memberTokens frame.before ++ [.bar]) ++
        ((TypeNode.wrap frame.parentheses type).tokens ++ TypeNode.memberTokens frame.after) := by
    rw [TypeNode.memberTokens_append, TypeNode.memberTokens, List.append_assoc, List.singleton_append]
  rw [plug, TypeNode.tokens, hsplit, unlessLeading_append (by simp), TypeNode.tokens_wrap, front, back]
  simp only [List.append_assoc]

theorem members_plug : (frame.plug type).members =
    TypeNode.allMembers frame.before ++ (type.members ++ TypeNode.allMembers frame.after) := by
  rw [plug, TypeNode.members, TypeNode.allMembers_append, TypeNode.allMembers, TypeNode.members_wrap]

end Frame

/-- The tokens in front of the hole, in parentheses. -/
def front (n : ℕ) : List (Frame Other) → List (Token Other)
  | [] => List.replicate n .opening
  | frame :: frames => front n frames ++ frame.front

def back (n : ℕ) : List (Frame Other) → List (Token Other)
  | [] => List.replicate n .closing
  | frame :: frames => frame.back ++ back n frames

def membersBefore : List (Frame Other) → List (Option Other)
  | [] => []
  | frame :: frames => membersBefore frames ++ TypeNode.allMembers frame.before

def membersAfter : List (Frame Other) → List (Option Other)
  | [] => []
  | frame :: frames => TypeNode.allMembers frame.after ++ membersAfter frames

theorem tokens_restore :
    (TypeNode.wrap n (restore frames type)).tokens = front n frames ++ (type.tokens ++ back n frames) := by
  induction frames generalizing type with
  | nil => exact TypeNode.tokens_wrap
  | cons frame frames ih =>
    rw [restore, List.foldl_cons, ← restore, ih, Frame.tokens_plug, front, back]
    simp only [List.append_assoc]

theorem members_restore :
    (TypeNode.wrap n (restore frames type)).members = membersBefore frames ++ (type.members ++ membersAfter frames) := by
  rw [TypeNode.members_wrap]
  induction frames generalizing type with
  | nil => exact (List.append_nil _).symm
  | cons frame frames ih =>
    rw [restore, List.foldl_cons, ← restore, ih, Frame.members_plug, membersBefore, membersAfter]
    simp only [List.append_assoc]

end Tokens

/-! ### Where `undefined` is found -/

mutual

theorem wrap_restore_of_found : ∀ (type : TypeNode Other) {n : ℕ} {frames : List (Frame Other)},
    getUndefinedTypeNode type = some (n, frames) → TypeNode.wrap n (restore frames .undefined) = type
  | .undefined, _, _, h => by
    cases h
    rfl
  | .other _, _, _, h => by cases h
  | .parenthesized type, n, frames, h => by
    obtain ⟨⟨m, frames'⟩, hfound, heq⟩ := Option.map_eq_some_iff.mp h
    cases heq
    exact congrArg TypeNode.parenthesized (wrap_restore_of_found type hfound)
  | .union leading types, n, frames, h => by
    obtain ⟨frames', hfound, heq⟩ := Option.map_eq_some_iff.mp h
    cases heq
    exact restore_of_found types hfound

theorem restore_of_found {leading : Bool} : ∀ (types : List (TypeNode Other)) {before : List (TypeNode Other)}
    {frames : List (Frame Other)}, findUndefined leading before types = some frames →
      restore frames .undefined = .union leading (before ++ types)
  | [], _, _, h => by cases h
  | type :: after, before, frames, h => by
    rw [findUndefined] at h
    split at h
    next n frames' hfound =>
      cases h
      rw [restore, List.foldl_append, ← restore]
      exact congrArg (fun type => TypeNode.union leading (before ++ type :: after)) (wrap_restore_of_found type hfound)
    next hfound =>
      rw [restore_of_found after h, List.append_assoc, List.singleton_append]

end

mutual

theorem not_mem_of_none : ∀ type : TypeNode Other, getUndefinedTypeNode type = none → none ∉ type.members
  | .undefined, h => by cases h
  | .other _, _ => by simp [TypeNode.members]
  | .parenthesized type, h => not_mem_of_none type (Option.map_eq_none_iff.mp h)
  | .union _ types, h => not_mem_of_findUndefined types (Option.map_eq_none_iff.mp h)

theorem not_mem_of_findUndefined {leading : Bool} : ∀ (types : List (TypeNode Other)) {before : List (TypeNode Other)},
    findUndefined leading before types = none → none ∉ TypeNode.allMembers types
  | [], _, _ => List.not_mem_nil
  | type :: after, before, h => by
    rw [findUndefined] at h
    split at h
    next n frames hfound => cases h
    next hfound =>
      rw [TypeNode.allMembers, List.mem_append]
      rintro (hmem | hmem)
      · exact not_mem_of_none type hfound hmem
      · exact not_mem_of_findUndefined after h hmem

end

theorem membersBefore_append {frame : Frame Other} {frames : List (Frame Other)} :
    membersBefore (frames ++ [frame]) = TypeNode.allMembers frame.before ++ membersBefore frames := by
  induction frames with
  | nil => exact (List.append_nil _).symm
  | cons other frames ih => rw [List.cons_append, membersBefore, ih, membersBefore, List.append_assoc]

mutual

theorem not_mem_membersBefore : ∀ (type : TypeNode Other) {n : ℕ} {frames : List (Frame Other)},
    getUndefinedTypeNode type = some (n, frames) → none ∉ membersBefore frames
  | .undefined, _, _, h => by
    cases h
    exact List.not_mem_nil
  | .other _, _, _, h => by cases h
  | .parenthesized type, n, frames, h => by
    obtain ⟨⟨m, frames'⟩, hfound, heq⟩ := Option.map_eq_some_iff.mp h
    cases heq
    exact not_mem_membersBefore type hfound
  | .union leading types, n, frames, h => by
    obtain ⟨frames', hfound, heq⟩ := Option.map_eq_some_iff.mp h
    cases heq
    exact not_mem_of_found types hfound List.not_mem_nil

theorem not_mem_of_found {leading : Bool} : ∀ (types : List (TypeNode Other)) {before : List (TypeNode Other)}
    {frames : List (Frame Other)}, findUndefined leading before types = some frames →
      none ∉ TypeNode.allMembers before → none ∉ membersBefore frames
  | [], _, _, h, _ => by cases h
  | type :: after, before, frames, h, hbefore => by
    rw [findUndefined] at h
    split at h
    next n frames' hfound =>
      cases h
      rw [membersBefore_append, List.mem_append]
      rintro (hmem | hmem)
      · exact hbefore hmem
      · exact not_mem_membersBefore type hfound hmem
    next hfound =>
      refine not_mem_of_found after h ?_
      rw [TypeNode.allMembers_append, List.mem_append, TypeNode.allMembers, TypeNode.allMembers, List.append_nil]
      rintro (hmem | hmem)
      · exact hbefore hmem
      · exact not_mem_of_none type hfound hmem

end

/-! ### Types in their unions -/

section Valid

variable {grammar : Grammar Other} {type type' : TypeNode Other} {types types' : List (TypeNode Other)} {n : ℕ}
  {next leading : Bool} {frame : Frame Other} {frames : List (Frame Other)}

open TypeNode

theorem allValid_append : AllValid grammar next (types ++ types') ↔
    AllValid grammar (!types'.isEmpty || next) types ∧ AllValid grammar next types' := by
  induction types with
  | nil => exact ⟨fun h => ⟨trivial, h⟩, fun h => h.2⟩
  | cons type types ih =>
    have hempty : (!(types ++ types').isEmpty) = (!types.isEmpty || !types'.isEmpty) := by
      cases types <;> simp
    rw [List.cons_append, AllValid, AllValid, ih, hempty, Bool.or_assoc]
    exact and_assoc.symm

theorem fits_of_beforeOperator (h : type.Fits grammar true) : type.Fits grammar next := by
  cases type with
  | other type =>
    cases next with
    | true => exact h
    | false => exact grammar.last_of_beforeOperator h
  | undefined => trivial
  | parenthesized type => trivial
  | union leading types => exact h

theorem valid_plug : (frame.plug type).Valid grammar ↔
    (frame.leading ∨ 1 ≤ frame.before.length + frame.after.length) ∧ AllValid grammar true frame.before ∧
      (type.Valid grammar ∧ (wrap frame.parentheses type).Fits grammar (!frame.after.isEmpty)) ∧
      AllValid grammar false frame.after := by
  rw [Frame.plug, Valid, allValid_append, AllValid, valid_wrap, Bool.or_false, Bool.or_false, List.length_append,
    List.length_cons]
  have hne : frame.before ++ wrap frame.parentheses type :: frame.after ≠ [] := by simp
  have hlength : 2 ≤ frame.before.length + (frame.after.length + 1) ↔
      1 ≤ frame.before.length + frame.after.length := by omega
  rw [hlength]
  exact ⟨fun h => ⟨h.1.2, h.2.1, h.2.2.1, h.2.2.2⟩, fun h => ⟨⟨hne, h.1⟩, h.2.1, h.2.2.1, h.2.2.2⟩⟩

theorem valid_of_restore (h : (restore frames type).Valid grammar) : type.Valid grammar := by
  induction frames generalizing type with
  | nil => exact h
  | cons frame frames ih => exact (valid_plug.mp (ih h)).2.2.1.1

theorem valid_restore (h : (restore frames (.union leading types)).Valid grammar)
    (hvalid : (TypeNode.union leading' types').Valid grammar) :
    (restore frames (.union leading' types')).Valid grammar := by
  induction frames generalizing leading types leading' types' with
  | nil => exact hvalid
  | cons frame frames ih =>
    refine ih h (valid_plug.mpr ?_)
    have hrest : (restore frames _).Valid grammar := h
    obtain ⟨hshape, hbefore, ⟨-, hfits⟩, hafter⟩ := valid_plug.mp (valid_of_restore hrest)
    refine ⟨hshape, hbefore, ⟨hvalid, ?_⟩, hafter⟩
    cases hn : frame.parentheses with
    | zero =>
      rw [hn] at hfits
      exact hfits.elim
    | succ n => trivial

end Valid

/-! ### What the fixes leave -/

section Fixes

variable {a b middle text : List (Token Other)} {x y : Token Other} {type : TypeNode Other}
  {before after : List (TypeNode Other)} {position : ℕ} {leading : Bool}

theorem mergeFixes_one : mergeFixes [⟨a.length, a.length + middle.length, text⟩] (a ++ (middle ++ b)) =
    a ++ (text ++ b) := by
  change ((a ++ (middle ++ b)).take a.length).drop 0 ++ (text ++ (a ++ (middle ++ b)).drop (a.length + middle.length)) = _
  rw [List.take_left, List.drop_zero, ← List.append_assoc a middle, ← List.length_append, List.drop_left]

/-- With the parentheses around. -/
theorem mergeFixes_three :
    mergeFixes [⟨(a ++ [x]).length, (a ++ [x]).length + middle.length, text⟩,
        ⟨(a ++ [x]).length - 1, (a ++ [x]).length, []⟩,
        ⟨(a ++ [x]).length + middle.length, (a ++ [x]).length + middle.length + 1, []⟩]
      ((a ++ [x]) ++ (middle ++ y :: b)) = a ++ (text ++ b) := by
  have hlength : (a ++ [x]).length = a.length + 1 := List.length_append
  have hfirst : ((a ++ [x]) ++ (middle ++ y :: b)).take a.length = a := by
    rw [List.append_assoc, List.take_left]
  have hlast : ((a ++ [x]) ++ (middle ++ y :: b)).drop (a.length + 1 + middle.length + 1) = b := by
    have hsplit : (a ++ [x]) ++ (middle ++ y :: b) = (a ++ [x] ++ middle ++ [y]) ++ b := by simp
    have hstop : a.length + 1 + middle.length + 1 = (a ++ [x] ++ middle ++ [y]).length := by
      rw [List.length_append, List.length_append, hlength]
      rfl
    rw [hsplit, hstop, List.drop_left]
  have hsort : List.insertionSort (fun a b : Fix Other => a.start ≤ b.start)
      [⟨a.length + 1, a.length + 1 + middle.length, text⟩, ⟨a.length, a.length + 1, []⟩,
        ⟨a.length + 1 + middle.length, a.length + 1 + middle.length + 1, []⟩] =
      [⟨a.length, a.length + 1, []⟩, ⟨a.length + 1, a.length + 1 + middle.length, text⟩,
        ⟨a.length + 1 + middle.length, a.length + 1 + middle.length + 1, []⟩] := by
    simp only [List.insertionSort, List.foldr_cons, List.foldr_nil, List.orderedInsert]
    rw [if_pos (by omega)]
    simp only [List.orderedInsert]
    rw [if_neg (by omega), if_pos (by omega)]
  rw [mergeFixes, hlength, Nat.add_sub_cancel, hsort, applyFixes, applyFixes, applyFixes, applyFixes, hfirst, hlast,
    List.drop_zero, List.drop_eq_nil_of_le (List.length_take_le _ _), List.drop_eq_nil_of_le (List.length_take_le _ _)]
  rfl

open TypeNode

theorem typeRanges_get : (typeRanges position (before ++ type :: after))[before.length]? =
    some (position + (memberTokens before).length + type.parentheses,
      position + (memberTokens before).length + type.parentheses + type.strip.tokens.length) := by
  induction before generalizing position with
  | nil => rfl
  | cons other before ih =>
    rw [List.cons_append, typeRanges, List.length_cons, List.getElem?_cons_succ, ih, memberTokens, List.length_cons,
      List.length_append]
    congr 2 <;> omega

theorem unlessLeading_concat {previous : TypeNode Other} :
    unlessLeading leading (memberTokens (before ++ [previous]) ++ [.bar]) =
      unlessLeading leading (memberTokens before ++ [.bar]) ++ (previous.tokens ++ [.bar]) := by
  have hbar : memberTokens (before ++ [previous]) ++ [Token.bar] =
      (memberTokens before ++ [.bar]) ++ (previous.tokens ++ [.bar]) := by
    rw [memberTokens_append, memberTokens, memberTokens, List.append_nil, List.append_assoc, List.append_assoc]
    rfl
  rw [hbar, unlessLeading_append (by simp)]

theorem length_unlessLeading : (unlessLeading leading (memberTokens before ++ [.bar])).length =
    (if leading then 1 else 0) + (memberTokens before).length := by
  cases leading with
  | true => rw [unlessLeading, if_pos rfl, List.length_append, List.length_singleton, if_pos rfl, Nat.add_comm]
  | false =>
    rw [unlessLeading, if_neg Bool.false_ne_true, List.length_tail, List.length_append, if_neg Bool.false_ne_true]
    exact (Nat.zero_add _).symm

end Fixes

/-- The program after the suggestion. -/
def suggestion (program : List (Token Other)) (position : ℕ) (union : Frame Other) : Option (List (Token Other)) :=
  (getUndefinedRemovalSuggestion program position union).map fun fixes => mergeFixes fixes program

namespace Frame

/-- The member in front of the hole, or else the one behind it. -/
def neighbour (frame : Frame Other) : Option (TypeNode Other) := frame.before.getLast?.or frame.after.head?

end Frame

section Suggestion

variable {union : Frame Other} {a b program : List (Token Other)} {x y : Token Other} {position : ℕ}
  {other next previous : TypeNode Other} {types before after : List (TypeNode Other)}

open TypeNode

theorem suggestion_two (hsize : union.before.length + union.after.length = 1) (hother : union.neighbour = some other) :
    getUndefinedRemovalSuggestion program position union =
      let stop := position + (union.plug .undefined).tokens.length
      if (program[position - 1]?).any Token.isOpening && (program[stop]?).any Token.isClosing then
        some [⟨position, stop, other.strip.tokens⟩, ⟨position - 1, position, []⟩, ⟨stop, stop + 1, []⟩]
      else some [⟨position, stop, other.strip.tokens⟩] := by
  obtain ⟨leading, before, n, after⟩ := union
  dsimp only at hsize
  cases before with
  | nil =>
    obtain ⟨type, rfl⟩ := List.length_eq_one_iff.mp ((Nat.zero_add _).symm.trans hsize)
    cases hother
    rfl
  | cons type before =>
    rw [List.length_cons] at hsize
    obtain rfl : before = [] := List.eq_nil_of_length_eq_zero (by omega)
    obtain rfl : after = [] := List.eq_nil_of_length_eq_zero (by omega)
    cases hother
    rfl

theorem suggestion_one (hbefore : union.before = []) (hafter : union.after = []) : suggestion program position union = none := by
  obtain ⟨leading, before, n, after⟩ := union
  cases hbefore
  cases hafter
  rfl

theorem getElem?_before : ((a ++ [x]) ++ b)[(a ++ [x]).length - 1]? = some x := by
  rw [List.length_append, List.length_singleton, Nat.add_sub_cancel, List.append_assoc, List.getElem?_append_right
    (le_refl _), Nat.sub_self]
  rfl

theorem getElem?_behind {middle : List (Token Other)} : (a ++ (middle ++ b))[a.length + middle.length]? = b.head? := by
  rw [← List.append_assoc, ← List.length_append, List.getElem?_append_right (le_refl _), Nat.sub_self,
    List.head?_eq_getElem?]

theorem suggestion_two_plain (hsize : union.before.length + union.after.length = 1)
    (hother : union.neighbour = some other) (hx : x.isOpening = false) :
    suggestion ((a ++ [x]) ++ ((union.plug .undefined).tokens ++ b)) (a ++ [x]).length union =
      some ((a ++ [x]) ++ (other.strip.tokens ++ b)) := by
  rw [suggestion, suggestion_two hsize hother, getElem?_before, Option.any_some, hx]
  exact congrArg some mergeFixes_one

theorem suggestion_two_parenthesized (hsize : union.before.length + union.after.length = 1)
    (hother : union.neighbour = some other) :
    suggestion ((a ++ [.opening]) ++ ((union.plug .undefined).tokens ++ .closing :: b)) (a ++ [Token.opening]).length union =
      some (a ++ (other.strip.tokens ++ b)) := by
  rw [suggestion, suggestion_two hsize hother, getElem?_before]
  dsimp only
  rw [getElem?_behind]
  exact congrArg some mergeFixes_three

theorem suggestion_many (hsize : 2 ≤ union.before.length + union.after.length) :
    getUndefinedRemovalSuggestion program position union =
      let ranges := typeRanges (position + if union.leading then 1 else 0)
        (union.before ++ .wrap union.parentheses .undefined :: union.after)
      (do
        let undefinedType ← ranges[union.before.length]?
        if union.before.length = 0 then
          let next ← ranges[1]?
          return [⟨undefinedType.1, next.1, []⟩]
        else
          let previous ← ranges[union.before.length - 1]?
          return [⟨previous.2, undefinedType.2, []⟩]) := by
  rw [getUndefinedRemovalSuggestion]
  dsimp only
  rw [if_neg]
  rw [List.length_append, List.length_cons]
  omega

/-- Up to the next member. -/
theorem suggestion_first (hbefore : union.before = []) (hafter : union.after = next :: types) (hne : types ≠ []) :
    suggestion (a ++ ((union.plug .undefined).tokens ++ b)) a.length union =
      some (a ++ (union.front ++ (next.strip.tokens ++
        (List.replicate next.parentheses .closing ++ (memberTokens types ++ b))))) := by
  obtain ⟨leading, before, n, after⟩ := union
  cases hbefore
  cases hafter
  have hpos := List.length_pos_of_ne_nil hne
  have hfirst := @typeRanges_get _ (wrap n .undefined) [] (next :: types) (a.length + if leading then 1 else 0)
  have hsecond : (typeRanges (a.length + if leading then 1 else 0) ([] ++ wrap n .undefined :: next :: types))[1]? = _ :=
    @typeRanges_get _ next [wrap n .undefined] types (a.length + if leading then 1 else 0)
  have hstart : a.length + (if leading then 1 else 0) + (memberTokens ([] : List (TypeNode Other))).length +
      (wrap n (.undefined : TypeNode Other)).parentheses =
        (a ++ (Frame.mk leading [] n (next :: types)).front).length := by
    rw [parentheses_wrap, Frame.front, List.length_append, List.length_append, length_unlessLeading,
      List.length_replicate]
    simp only [parentheses]
    omega
  have hstop : a.length + (if leading then 1 else 0) + (memberTokens [wrap n (.undefined : TypeNode Other)]).length +
      next.parentheses = (a ++ (Frame.mk leading [] n (next :: types)).front).length +
        (@Token.undefined Other :: (List.replicate n .closing ++
          (.bar :: List.replicate next.parentheses .opening))).length := by
    rw [← hstart, parentheses_wrap]
    simp only [memberTokens, tokens_wrap, tokens, parentheses, List.length_cons, List.length_append,
      List.length_replicate, List.length_nil]
    omega
  have htokens : (Frame.plug ⟨leading, [], n, next :: types⟩ .undefined).tokens ++ b =
      (Frame.mk leading [] n (next :: types)).front ++ ((Token.undefined :: (List.replicate n .closing ++
        (.bar :: List.replicate next.parentheses .opening))) ++ (next.strip.tokens ++
          (List.replicate next.parentheses .closing ++ (memberTokens types ++ b)))) := by
    rw [Frame.tokens_plug, Frame.back, memberTokens, ← @tokens_strip _ next]
    simp [tokens]
  rw [suggestion, suggestion_many (by simp; omega)]
  dsimp only
  rw [hfirst, hsecond, hstart, hstop, htokens, ← List.append_assoc a]
  refine congrArg some (mergeFixes_one.trans ?_)
  rw [List.nil_append, List.append_assoc]

/-- From the end of the member in front. -/
theorem suggestion_later (hbefore : union.before = before ++ [previous]) (hne : before ++ union.after ≠ []) :
    suggestion (a ++ ((union.plug .undefined).tokens ++ b)) a.length union =
      some (a ++ ((unlessLeading union.leading (memberTokens before ++ [.bar]) ++
        (List.replicate previous.parentheses .opening ++ previous.strip.tokens)) ++ (union.back ++ b))) := by
  obtain ⟨leading, before', n, after⟩ := union
  obtain rfl : before' = before ++ [previous] := hbefore
  have hpos := List.length_pos_of_ne_nil hne
  rw [List.length_append] at hpos
  have hsize : 2 ≤ (before ++ [previous]).length + after.length := by
    rw [List.length_append, List.length_singleton]
    dsimp only at hpos
    omega
  have hindex : (before ++ [previous]).length - 1 = before.length := by
    rw [List.length_append, List.length_singleton, Nat.add_sub_cancel]
  have hprevious : (typeRanges (a.length + if leading then 1 else 0)
      ((before ++ [previous]) ++ wrap n .undefined :: after))[(before ++ [previous]).length - 1]? =
        some (a.length + (if leading then 1 else 0) + (memberTokens before).length + previous.parentheses,
          a.length + (if leading then 1 else 0) + (memberTokens before).length + previous.parentheses +
            previous.strip.tokens.length) := by
    rw [hindex, List.append_assoc]
    exact typeRanges_get
  have hcurrent := @typeRanges_get _ (wrap n .undefined) (before ++ [previous]) after
    (a.length + if leading then 1 else 0)
  have hstart : a.length + (if leading then 1 else 0) + (memberTokens before).length + previous.parentheses +
      previous.strip.tokens.length = (a ++ (unlessLeading leading (memberTokens before ++ [Token.bar]) ++
        (List.replicate previous.parentheses Token.opening ++ previous.strip.tokens))).length := by
    simp only [List.length_append, length_unlessLeading, List.length_replicate]
    omega
  have hstop : a.length + (if leading then 1 else 0) + (memberTokens (before ++ [previous])).length +
      (wrap n (.undefined : TypeNode Other)).parentheses + (wrap n (.undefined : TypeNode Other)).strip.tokens.length =
        (a ++ (unlessLeading leading (memberTokens before ++ [Token.bar]) ++
          (List.replicate previous.parentheses Token.opening ++ previous.strip.tokens))).length +
            (List.replicate previous.parentheses Token.closing ++ Token.bar ::
              (List.replicate n Token.opening ++ [@Token.undefined Other])).length := by
    have htokens := congrArg List.length (@tokens_strip _ previous)
    rw [← hstart, parentheses_wrap, strip_wrap, memberTokens_append]
    simp only [memberTokens, tokens, strip, parentheses, List.length_cons, List.length_append, List.length_replicate,
      List.length_nil] at htokens ⊢
    omega
  have htokens : (Frame.plug ⟨leading, before ++ [previous], n, after⟩ .undefined).tokens ++ b =
      (unlessLeading leading (memberTokens before ++ [.bar]) ++
        (List.replicate previous.parentheses .opening ++ previous.strip.tokens)) ++
      ((List.replicate previous.parentheses .closing ++ Token.bar :: (List.replicate n .opening ++ [.undefined])) ++
        ((Frame.mk leading (before ++ [previous]) n after).back ++ b)) := by
    rw [Frame.tokens_plug, Frame.front, unlessLeading_concat, ← @tokens_strip _ previous]
    simp [tokens]
  rw [suggestion, suggestion_many hsize]
  dsimp only
  rw [hprevious, hcurrent]
  simp only [Option.bind_eq_bind, Option.bind_some]
  rw [if_neg (by simp), hstart, hstop, htokens, ← List.append_assoc a]
  refine congrArg some (mergeFixes_one.trans ?_)
  rw [List.nil_append, List.append_assoc]

end Suggestion

/-! ### What holds of the tokens of a type -/

section Locally

variable {grammar : Grammar Other} {type : TypeNode Other} {types : List (TypeNode Other)} {next : Bool}
  {tokens tokens' : List (Token Other)} {before after : Option (Token Other)}

/-- A token between two other ones. -/
def Neighbours (grammar : Grammar Other) (before : Option (Token Other)) (token : Token Other)
    (after : Option (Token Other)) : Prop :=
  match token with
  | .other type => (after = some .bar → grammar.BeforeOperator type) ∧ (before = some .bar → grammar.Last type)
  | .bar => after ≠ some .bar
  | _ => True

def Locally (grammar : Grammar Other) (before : Option (Token Other)) (after : Option (Token Other)) :
    List (Token Other) → Prop
  | [] => True
  | token :: tokens =>
    Neighbours grammar before token (tokens.head?.or after) ∧ Locally grammar (some token) after tokens

theorem locally_append : Locally grammar before after (tokens ++ tokens') ↔
    Locally grammar before (tokens'.head?.or after) tokens ∧
      Locally grammar (tokens.getLast?.or before) after tokens' := by
  induction tokens generalizing before with
  | nil => exact ⟨fun h => ⟨trivial, h⟩, fun h => h.2⟩
  | cons token tokens ih =>
    have hhead : (tokens ++ tokens').head?.or after = tokens.head?.or (tokens'.head?.or after) := by
      rw [List.head?_append, Option.or_assoc]
    have hlast : (token :: tokens).getLast?.or before = tokens.getLast?.or (some token) := by
      rw [List.getLast?_cons]
      cases tokens.getLast? <;> rfl
    rw [List.cons_append, Locally, Locally, ih, hhead, hlast]
    exact and_assoc.symm

theorem neighbours_of_bar {token : Token Other} (h : Neighbours grammar (some .bar) token after) :
    Neighbours grammar before token after := by
  cases token with
  | other type => exact ⟨h.1, fun _ => h.2 rfl⟩
  | bar => exact h
  | opening => trivial
  | closing => trivial
  | undefined => trivial
  | colon => trivial
  | outside id => trivial

theorem locally_of_bar (h : Locally grammar (some .bar) after tokens) : Locally grammar before after tokens := by
  cases tokens with
  | nil => trivial
  | cons token tokens => exact ⟨neighbours_of_bar h.1, h.2⟩

theorem locally_parenthesized (h : Locally grammar (some .opening) (some .closing) tokens) :
    Locally grammar before after (.opening :: (tokens ++ [.closing])) :=
  ⟨trivial, locally_append.mpr ⟨h, trivial, trivial⟩⟩

open TypeNode

theorem exists_head_tokens (h : type.Fits grammar next) : ∃ token rest, type.tokens = token :: rest ∧ token ≠ .bar := by
  cases type with
  | undefined => exact ⟨_, _, rfl, nofun⟩
  | other type => exact ⟨_, _, rfl, nofun⟩
  | parenthesized type => exact ⟨_, _, rfl, nofun⟩
  | union leading types => exact h.elim

mutual

theorem locally_tokens : ∀ (type : TypeNode Other) {before after : Option (Token Other)}, type.Valid grammar →
    before ≠ some .bar → after ≠ some .bar → Locally grammar before after type.tokens
  | .undefined, _, _, _, _, _ => ⟨trivial, trivial⟩
  | .other _, _, _, _, hbefore, hafter => ⟨⟨fun h => (hafter h).elim, fun h => (hbefore h).elim⟩, trivial⟩
  | .parenthesized type, _, _, hvalid, _, _ => locally_parenthesized (locally_tokens type hvalid nofun nofun)
  | .union leading types, before, after, hvalid, hbefore, hafter => by
    have hmembers : Locally grammar before after (memberTokens types) :=
      locally_memberTokens types hvalid.2 fun h => (hafter h).elim
    cases leading with
    | true => exact hmembers
    | false =>
      rw [tokens, unlessLeading, if_neg Bool.false_ne_true]
      cases types with
      | nil => trivial
      | cons type types => exact locally_of_bar hmembers.2

theorem locally_member : ∀ (type : TypeNode Other) {next : Bool} {after : Option (Token Other)}, type.Valid grammar →
    type.Fits grammar next → (after = some .bar → next = true) → Locally grammar (some .bar) after type.tokens
  | .undefined, _, _, _, _, _ => ⟨trivial, trivial⟩
  | .other type, next, after, _, hfits, hafter => by
    refine ⟨⟨fun h => ?_, fun _ => ?_⟩, trivial⟩
    · rw [hafter h] at hfits
      exact hfits
    · cases next with
      | true => exact grammar.last_of_beforeOperator hfits
      | false => exact hfits
  | .parenthesized type, _, _, hvalid, _, _ => locally_parenthesized (locally_tokens type hvalid nofun nofun)
  | .union _ _, _, _, _, hfits, _ => hfits.elim

theorem locally_memberTokens : ∀ (types : List (TypeNode Other)) {next : Bool} {before after : Option (Token Other)},
    AllValid grammar next types → (after = some .bar → next = true) →
      Locally grammar before after (memberTokens types)
  | [], _, _, _, _, _ => trivial
  | type :: types, next, before, after, ⟨⟨hvalid, hfits⟩, hrest⟩, hafter => by
    obtain ⟨token, rest, htokens, hbar⟩ := exists_head_tokens hfits
    have hmember : Locally grammar (some .bar) ((memberTokens types).head?.or after) type.tokens :=
      locally_member type hvalid hfits fun h => by
        cases types with
        | nil => exact hafter h
        | cons other types => rfl
    refine ⟨?_, locally_append.mpr ⟨hmember, locally_memberTokens types hrest hafter⟩⟩
    rw [htokens]
    exact fun h => hbar (Option.some.inj h)

end

end Locally

/-! ### Parentheses -/

section Parentheses

open TypeNode

theorem countP_unlessLeading {p : Token Other → Bool} (hp : p .bar = false) (leading : Bool)
    (types : List (TypeNode Other)) :
    (unlessLeading leading (memberTokens types)).countP p = (memberTokens types).countP p := by
  cases leading with
  | true => rfl
  | false =>
    cases types with
    | nil => rfl
    | cons type types => exact (List.countP_cons_of_neg (by simp [hp])).symm

mutual

theorem countP_tokens : ∀ type : TypeNode Other,
    type.tokens.countP Token.isOpening = type.tokens.countP Token.isClosing
  | .undefined => rfl
  | .other _ => rfl
  | .parenthesized type => by
    have hcount := countP_tokens type
    rw [tokens, List.countP_cons_of_pos rfl, List.countP_cons_of_neg Bool.false_ne_true, List.countP_append, List.countP_append, hcount]
    rfl
  | .union leading types => by
    rw [tokens, countP_unlessLeading rfl, countP_unlessLeading rfl]
    exact countP_memberTokens types

theorem countP_memberTokens : ∀ types : List (TypeNode Other),
    (memberTokens types).countP Token.isOpening = (memberTokens types).countP Token.isClosing
  | [] => rfl
  | type :: types => by
    rw [memberTokens, List.countP_cons_of_neg Bool.false_ne_true, List.countP_cons_of_neg Bool.false_ne_true, List.countP_append,
      List.countP_append, countP_tokens type, countP_memberTokens types]

end

end Parentheses

/-! ### When the suggestion is right -/

/-- Whether the type can stand in the hole without its parentheses. A union becomes a part of the one around. -/
def Stands (grammar : Grammar Other) (frame : Frame Other) : TypeNode Other → Prop
  | .union leading types =>
    (leading → frame.before = [] ∧ frame.leading = false) ∧
      (frame.after ≠ [] → ∀ last ∈ types.getLast?, last.Fits grammar true)
  | type => type.Fits grammar (!frame.after.isEmpty)

/-- A union of two is replaced, and the parentheses around it removed. -/
def Unwraps (grammar : Grammar Other) (outer : List (Frame Other)) (other : TypeNode Other) : Prop :=
  match outer with
  | [] => True
  | frame :: _ => 2 ≤ frame.parentheses ∨ Stands grammar frame other

def Removable (grammar : Grammar Other) (union : Frame Other) (outer : List (Frame Other)) : Prop :=
  match union.neighbour with
  | none => False
  | some other =>
    if union.before.length + union.after.length = 1 then Unwraps grammar outer other.strip
    else union.parentheses = other.parentheses

/-- The text is that of a type without the member, in the same program. -/
def Preserved (grammar : Grammar Other) (before after : List (Token Other)) (type : TypeNode Other) (n : ℕ)
    (union : Frame Other) (outer : List (Frame Other)) : Prop :=
  ∃ type' : TypeNode Other, type'.Valid grammar ∧
    suggestion (before ++ .colon :: (type.tokens ++ after)) (before.length + 1 + (front n outer).length) union =
      some (before ++ .colon :: (type'.tokens ++ after)) ∧
    type'.members = type.members.eraseP Option.isNone

section Removal

variable {grammar : Grammar Other} {type other : TypeNode Other} {n m : ℕ} {union frame : Frame Other}
  {outer frames : List (Frame Other)} {before after text : List (Token Other)} {types : List (TypeNode Other)}

open TypeNode

theorem members_eraseP (hfound : getUndefinedTypeNode type = some (n, frames)) :
    type.members.eraseP Option.isNone = membersBefore frames ++ membersAfter frames := by
  have hfirst : ∀ member ∈ membersBefore frames, ¬ member.isNone = true := by
    intro member hmember hnone
    rw [Option.isNone_iff_eq_none.mp hnone] at hmember
    exact not_mem_membersBefore type hfound hmember
  rw [← wrap_restore_of_found type hfound, members_restore, List.eraseP_append_right _ hfirst]
  rfl

theorem program_eq (hfound : getUndefinedTypeNode type = some (n, union :: outer)) :
    before ++ .colon :: (type.tokens ++ after) =
      (before ++ .colon :: front n outer) ++ ((union.plug .undefined).tokens ++ (back n outer ++ after)) := by
  have htokens : (wrap n (restore outer (union.plug .undefined))).tokens = _ := tokens_restore
  have htype : wrap n (restore outer (union.plug .undefined)) = type := wrap_restore_of_found type hfound
  rw [← htype, htokens]
  simp

theorem preserved_iff_of_suggestion (hfound : getUndefinedTypeNode type = some (n, union :: outer))
    (htext : suggestion ((before ++ .colon :: front n outer) ++
      ((union.plug .undefined).tokens ++ (back n outer ++ after))) (before ++ Token.colon :: front n outer).length union =
        some (before ++ .colon :: (text ++ after))) :
    Preserved grammar before after type n union outer ↔ ∃ type' : TypeNode Other, type'.Valid grammar ∧
      type'.tokens = text ∧ type'.members = membersBefore (union :: outer) ++ membersAfter (union :: outer) := by
  have hlength : before.length + 1 + (front n outer).length = (before ++ Token.colon :: front n outer).length := by
    rw [List.length_append, List.length_cons]
    omega
  rw [Preserved, program_eq hfound, hlength, htext, members_eraseP hfound]
  refine exists_congr fun type' => and_congr_right fun _ => and_congr_left fun _ => ?_
  constructor
  · intro h
    have htail := (List.cons.inj (List.append_cancel_left (Option.some.inj h))).2
    exact (List.append_cancel_right htail).symm
  · rintro rfl
    rfl

theorem valid_outer (hvalid : type.Valid grammar) (hfound : getUndefinedTypeNode type = some (n, union :: outer)) :
    (restore outer (union.plug .undefined)).Valid grammar := by
  have htype : wrap n (restore outer (union.plug .undefined)) = type := wrap_restore_of_found type hfound
  rw [← htype] at hvalid
  exact valid_wrap.mp hvalid

theorem allValid_of_true (h : AllValid grammar true types) {next : Bool} : AllValid grammar next types := by
  induction types with
  | nil => trivial
  | cons type types ih =>
    refine ⟨⟨h.1.1, fits_of_beforeOperator ?_⟩, ih h.2⟩
    have hfits := h.1.2
    rwa [Bool.or_true] at hfits

/-- The original type has as many opening as closing parentheses. -/
theorem countP_outer (hfound : getUndefinedTypeNode type = some (n, union :: outer)) :
    (front n outer).countP Token.isOpening + union.front.countP Token.isOpening +
        (union.back.countP Token.isOpening + (back n outer).countP Token.isOpening) =
      (front n outer).countP Token.isClosing + union.front.countP Token.isClosing +
        (union.back.countP Token.isClosing + (back n outer).countP Token.isClosing) := by
  have htype : wrap n (restore outer (union.plug .undefined)) = type := wrap_restore_of_found type hfound
  have hcount := countP_tokens type
  rw [← htype, tokens_restore, Frame.tokens_plug, tokens] at hcount
  simp only [List.countP_append, List.countP_cons, List.countP_nil, Token.isOpening, Token.isClosing,
    Bool.false_eq_true, if_false] at hcount
  omega

theorem countP_replicate_opening : (List.replicate n (@Token.opening Other)).countP Token.isOpening = n ∧
    (List.replicate n (@Token.opening Other)).countP Token.isClosing = 0 := by
  constructor
  · rw [List.countP_replicate]
    rfl
  · rw [List.countP_replicate]
    rfl

theorem countP_replicate_closing : (List.replicate n (@Token.closing Other)).countP Token.isOpening = 0 ∧
    (List.replicate n (@Token.closing Other)).countP Token.isClosing = n := by
  constructor
  · rw [List.countP_replicate]
    rfl
  · rw [List.countP_replicate]
    rfl

theorem preserved_first {next : TypeNode Other} (hvalid : type.Valid grammar)
    (hfound : getUndefinedTypeNode type = some (n, union :: outer)) (hbefore : union.before = [])
    (hafter : union.after = next :: types) (hne : types ≠ []) :
    Preserved grammar before after type n union outer ↔ union.parentheses = next.parentheses := by
  have hrestore := valid_outer hvalid hfound
  have hsuggestion : suggestion ((before ++ .colon :: front n outer) ++
      ((union.plug .undefined).tokens ++ (back n outer ++ after))) (before ++ Token.colon :: front n outer).length union =
        some (before ++ .colon :: ((front n outer ++ (union.front ++ (next.strip.tokens ++
          (List.replicate next.parentheses .closing ++ (memberTokens types ++ back n outer))))) ++ after)) :=
    (suggestion_first hbefore hafter hne).trans (by simp)
  rw [preserved_iff_of_suggestion hfound hsuggestion]
  constructor
  · rintro ⟨type', -, htext, -⟩
    have hcount := countP_tokens type'
    have horiginal := countP_outer hfound
    rw [htext] at hcount
    rw [Frame.back, hafter, memberTokens] at horiginal
    simp only [List.countP_append, List.countP_cons, Token.isOpening, Token.isClosing, Bool.false_eq_true, if_false,
      countP_tokens, countP_memberTokens, countP_replicate_closing] at hcount horiginal
    omega
  · intro hparentheses
    have hplug := valid_plug.mp (valid_of_restore hrestore)
    rw [hafter] at hplug
    refine ⟨wrap n (restore outer (.union union.leading (next :: types))), valid_wrap.mpr (valid_restore hrestore
      ⟨⟨List.cons_ne_nil _ _, Or.inr ?_⟩, hplug.2.2.2⟩), ?_, ?_⟩
    · have hpos := List.length_pos_of_ne_nil hne
      rw [List.length_cons]
      omega
    · have hmembers : memberTokens (next :: types) = [.bar] ++ (next.tokens ++ memberTokens types) := rfl
      have hfront : union.front = unlessLeading union.leading [.bar] ++ List.replicate next.parentheses .opening := by
        rw [Frame.front, hbefore, hparentheses]
        rfl
      rw [tokens_restore, tokens, hmembers, unlessLeading_append (List.cons_ne_nil _ _), hfront, ← @tokens_strip _ next]
      simp
    · rw [members_restore, membersBefore, membersAfter, hbefore, hafter]
      simp [members, allMembers]

theorem preserved_later {previous : TypeNode Other} (hvalid : type.Valid grammar)
    (hfound : getUndefinedTypeNode type = some (n, union :: outer)) (hbefore : union.before = types ++ [previous])
    (hne : types ++ union.after ≠ []) :
    Preserved grammar before after type n union outer ↔ union.parentheses = previous.parentheses := by
  have hrestore := valid_outer hvalid hfound
  have hsuggestion : suggestion ((before ++ .colon :: front n outer) ++
      ((union.plug .undefined).tokens ++ (back n outer ++ after))) (before ++ Token.colon :: front n outer).length union =
        some (before ++ .colon :: ((front n outer ++ ((unlessLeading union.leading (memberTokens types ++ [.bar]) ++
          (List.replicate previous.parentheses .opening ++ previous.strip.tokens)) ++ (union.back ++ back n outer))) ++
            after)) :=
    (suggestion_later hbefore hne).trans (by simp)
  rw [preserved_iff_of_suggestion hfound hsuggestion]
  constructor
  · rintro ⟨type', -, htext, -⟩
    have hcount := countP_tokens type'
    have horiginal := countP_outer hfound
    rw [htext] at hcount
    rw [Frame.front, hbefore, unlessLeading_concat] at horiginal
    simp only [List.countP_append, List.countP_cons, List.countP_nil, Token.isOpening, Token.isClosing,
      Bool.false_eq_true, if_false, countP_tokens, countP_replicate_opening] at hcount horiginal
    omega
  · intro hparentheses
    obtain ⟨hshape, hvalidBefore, -, hvalidAfter⟩ := valid_plug.mp (valid_of_restore hrestore)
    have hpos := List.length_pos_of_ne_nil hne
    rw [hbefore] at hvalidBefore
    refine ⟨wrap n (restore outer (.union union.leading (types ++ previous :: union.after))),
      valid_wrap.mpr (valid_restore hrestore ⟨⟨by simp, Or.inr ?_⟩, ?_⟩), ?_, ?_⟩
    · rw [List.length_append] at hpos ⊢
      rw [List.length_cons]
      omega
    · rw [← List.singleton_append, ← List.append_assoc]
      exact allValid_append.mpr ⟨allValid_of_true hvalidBefore, hvalidAfter⟩
    · have hmembers : memberTokens (types ++ previous :: union.after) =
          (memberTokens types ++ [.bar]) ++ (previous.tokens ++ memberTokens union.after) := by
        rw [memberTokens_append, memberTokens]
        simp
      rw [tokens_restore, tokens, hmembers, unlessLeading_append (by simp), Frame.back, hparentheses,
        ← @tokens_strip _ previous]
      simp
    · rw [members_restore, membersBefore, membersAfter, hbefore]
      simp [members, allMembers, allMembers_append]

theorem valid_strip : type.strip.Valid grammar ↔ type.Valid grammar := by
  conv_rhs => rw [← wrap_strip type, valid_wrap]

theorem members_strip : type.strip.members = type.members := by
  conv_rhs => rw [← wrap_strip type, members_wrap]

theorem other_of_two (hsize : union.before.length + union.after.length = 1) (hother : union.neighbour = some other)
    (hbefore : AllValid grammar true union.before) (hafter : AllValid grammar false union.after) :
    other.strip.Valid grammar ∧ allMembers union.before ++ allMembers union.after = other.strip.members := by
  rw [valid_strip, members_strip]
  obtain ⟨leading, types, n, types'⟩ := union
  dsimp only at hsize hbefore hafter ⊢
  cases types with
  | nil =>
    obtain ⟨type, rfl⟩ := List.length_eq_one_iff.mp ((Nat.zero_add _).symm.trans hsize)
    cases hother
    exact ⟨hafter.1.1, List.append_nil _⟩
  | cons type types =>
    rw [List.length_cons] at hsize
    obtain rfl : types = [] := List.eq_nil_of_length_eq_zero (by omega)
    obtain rfl : types' = [] := List.eq_nil_of_length_eq_zero (by omega)
    cases hother
    exact ⟨hbefore.1.1, by simp [allMembers]⟩

theorem suggestion_parenthesized {inner behind : List (Token Other)}
    (hsize : union.before.length + union.after.length = 1) (hother : union.neighbour = some other)
    (hfront : front n outer = inner ++ [.opening]) (hback : back n outer = .closing :: behind) :
    suggestion ((before ++ .colon :: front n outer) ++
      ((union.plug .undefined).tokens ++ (back n outer ++ after))) (before ++ Token.colon :: front n outer).length union =
        some (before ++ .colon :: ((inner ++ (other.strip.tokens ++ behind)) ++ after)) := by
  have hbefore : before ++ Token.colon :: front n outer = (before ++ .colon :: inner) ++ [.opening] := by
    rw [hfront]
    simp
  rw [hbefore, hback, List.cons_append, suggestion_two_parenthesized hsize hother]
  simp

theorem preserved_two_alone (hvalid : type.Valid grammar) (hfound : getUndefinedTypeNode type = some (n, [union]))
    (hsize : union.before.length + union.after.length = 1) (hother : union.neighbour = some other) :
    Preserved grammar before after type n union [] := by
  obtain ⟨-, hvalidBefore, -, hvalidAfter⟩ := valid_plug.mp (valid_of_restore (valid_outer hvalid hfound))
  obtain ⟨hvalidOther, hmembers⟩ := other_of_two hsize hother hvalidBefore hvalidAfter
  cases n with
  | zero =>
    have hsuggestion : suggestion ((before ++ .colon :: front 0 []) ++
        ((union.plug .undefined).tokens ++ (back 0 [] ++ after))) (before ++ Token.colon :: front 0 []).length union =
          some (before ++ .colon :: (other.strip.tokens ++ after)) :=
      (suggestion_two_plain hsize hother rfl).trans (by simp [back])
    rw [preserved_iff_of_suggestion hfound hsuggestion]
    refine ⟨other.strip, hvalidOther, rfl, ?_⟩
    rw [← hmembers]
    simp [membersBefore, membersAfter]
  | succ m =>
    have hfront : front (m + 1) ([] : List (Frame Other)) = List.replicate m .opening ++ [.opening] :=
      List.replicate_succ'
    have hback : back (m + 1) ([] : List (Frame Other)) = .closing :: List.replicate m .closing := List.replicate_succ
    rw [preserved_iff_of_suggestion hfound (suggestion_parenthesized hsize hother hfront hback)]
    refine ⟨wrap m other.strip, valid_wrap.mpr hvalidOther, tokens_wrap, ?_⟩
    rw [members_wrap, ← hmembers]
    simp [membersBefore, membersAfter]

/-- An operator stands where the hole of a union begins or ends. -/
theorem stands_of_locally {type : TypeNode Other} {inner behind : List (Token Other)}
    (hshape : frame.leading ∨ 1 ≤ frame.before.length + frame.after.length) (hvalid : type.Valid grammar)
    (h : Locally grammar none none ((inner ++ unlessLeading frame.leading (memberTokens frame.before ++ [.bar])) ++
      (type.tokens ++ (memberTokens frame.after ++ behind)))) : Stands grammar frame type := by
  have hlead (hbar : frame.leading = true ∨ frame.before ≠ []) : ∃ tokens,
      inner ++ unlessLeading frame.leading (memberTokens frame.before ++ [.bar]) = tokens ++ [.bar] := by
    by_cases hleading : frame.leading = true
    · exact ⟨inner ++ memberTokens frame.before, by rw [hleading, List.append_assoc]; rfl⟩
    · have hne : memberTokens frame.before ≠ [] := by
        cases hbefore : frame.before with
        | nil => exact absurd hbefore (hbar.resolve_left hleading)
        | cons type types => exact List.cons_ne_nil _ _
      exact ⟨inner ++ unlessLeading frame.leading (memberTokens frame.before), by
        rw [unlessLeading_append hne, List.append_assoc]⟩
  have hnext (hne : frame.after ≠ []) : (memberTokens frame.after ++ behind).head?.or none = some .bar := by
    obtain ⟨type, types, hafter⟩ := List.exists_cons_of_ne_nil hne
    rw [hafter]
    rfl
  obtain ⟨hfront, hrest⟩ := locally_append.mp h
  obtain ⟨htype, -⟩ := locally_append.mp hrest
  rw [Option.or_none] at htype
  cases type with
  | undefined => trivial
  | parenthesized type => trivial
  | other type =>
    obtain ⟨⟨hbefore, hlast⟩, -⟩ := htype
    change (TypeNode.other type).Fits grammar (!frame.after.isEmpty)
    by_cases hne : frame.after = []
    · rw [hne]
      refine hlast ?_
      obtain ⟨tokens, htokens⟩ := hlead (hshape.imp_right fun hpos hnil => by rw [hne, hnil] at hpos; cases hpos)
      rw [htokens, List.getLast?_concat]
    · have hempty : (!frame.after.isEmpty) = true := by simpa using hne
      rw [hempty]
      exact hbefore (hnext hne)
  | union leading types =>
    constructor
    · intro hleading
      by_contra hcontra
      obtain ⟨inner', hinner⟩ := hlead (by
        by_contra hnone
        rw [not_or, Bool.not_eq_true, not_not] at hnone
        exact hcontra ⟨hnone.2, hnone.1⟩)
      obtain ⟨type, types, rfl⟩ := List.exists_cons_of_ne_nil hvalid.1.1
      rw [hinner, hleading] at hfront
      obtain ⟨-, hbar, -⟩ := locally_append.mp hfront
      exact hbar rfl
    · intro hne last hlast
      obtain ⟨init, rfl⟩ := List.getLast?_eq_some_iff.mp hlast
      have hvalidLast := (allValid_append.mp hvalid.2).2.1.2
      cases last with
      | undefined => trivial
      | parenthesized type => trivial
      | union leading types => exact hvalidLast.elim
      | other type =>
        have htokens : memberTokens (init ++ [.other type]) = (memberTokens init ++ [.bar]) ++ [.other type] := by
          rw [memberTokens_append]
          simp [memberTokens, tokens]
        rw [tokens, htokens, @unlessLeading_append _ (memberTokens init ++ [Token.bar]) _ leading (by simp)] at htype
        obtain ⟨-, ⟨hbar, -⟩, -⟩ := locally_append.mp htype
        exact hbar (hnext hne)

theorem allValid_of_last (h : AllValid grammar false types) (hlast : ∀ last ∈ types.getLast?, last.Fits grammar true) :
    AllValid grammar true types := by
  induction types with
  | nil => trivial
  | cons type types ih =>
    cases types with
    | nil => exact ⟨⟨h.1.1, hlast type rfl⟩, trivial⟩
    | cons next types => exact ⟨h.1, ih h.2 hlast⟩

/-- A union without parentheses in another one. -/
theorem splice {leading leading' : Bool} {types inner types' : List (TypeNode Other)}
    (hshape : leading = true ∨ 1 ≤ types.length + types'.length) (hbefore : AllValid grammar true types)
    (hafter : AllValid grammar false types') (hinner : (TypeNode.union leading' inner).Valid grammar)
    (hstands : Stands grammar ⟨leading, types, m, types'⟩ (.union leading' inner)) :
    (TypeNode.union (leading || leading') (types ++ (inner ++ types'))).Valid grammar ∧
      (TypeNode.union (leading || leading') (types ++ (inner ++ types'))).tokens =
        unlessLeading leading (memberTokens types ++ [.bar]) ++
          ((TypeNode.union leading' inner).tokens ++ memberTokens types') := by
  obtain ⟨⟨hne, -⟩, hall⟩ := hinner
  obtain ⟨hleading, hlast⟩ := hstands
  have hpos := List.length_pos_of_ne_nil hne
  constructor
  · refine ⟨⟨by simp [hne], ?_⟩, allValid_append.mpr ⟨allValid_of_true hbefore, allValid_append.mpr ⟨?_, hafter⟩⟩⟩
    · rw [List.length_append, List.length_append, Bool.or_eq_true]
      rcases hshape with hshape | hshape
      · exact Or.inl (Or.inl hshape)
      · exact Or.inr (by omega)
    · cases types' with
      | nil => exact hall
      | cons type types' => exact allValid_of_last hall (hlast (List.cons_ne_nil _ _))
  · rw [tokens, tokens, memberTokens_append, memberTokens_append]
    cases leading' with
    | true =>
      obtain ⟨rfl, rfl⟩ := hleading rfl
      rfl
    | false =>
      obtain ⟨type, inner, rfl⟩ := List.exists_cons_of_ne_nil hne
      have hbar : memberTokens types ++ (memberTokens (type :: inner) ++ memberTokens types') =
          (memberTokens types ++ [Token.bar]) ++ ((type.tokens ++ memberTokens inner) ++ memberTokens types') := by
        rw [memberTokens]
        simp
      rw [hbar, Bool.or_false, unlessLeading_append (by simp)]
      rfl

theorem preserved_two_nested (hvalid : type.Valid grammar)
    (hfound : getUndefinedTypeNode type = some (n, union :: frame :: outer))
    (hsize : union.before.length + union.after.length = 1) (hother : union.neighbour = some other) :
    Preserved grammar before after type n union (frame :: outer) ↔
      2 ≤ frame.parentheses ∨ Stands grammar frame other.strip := by
  have hrestore : (restore outer (frame.plug (union.plug .undefined))).Valid grammar := valid_outer hvalid hfound
  obtain ⟨hshape, hbefore, ⟨hvalidUnion, hfits⟩, hafter⟩ := valid_plug.mp (valid_of_restore hrestore)
  obtain ⟨-, hvalidBefore, -, hvalidAfter⟩ := valid_plug.mp hvalidUnion
  obtain ⟨hvalidOther, hmembers⟩ := other_of_two hsize hother hvalidBefore hvalidAfter
  obtain ⟨leading, types, m, types'⟩ := frame
  cases m with
  | zero => exact hfits.elim
  | succ m =>
    have hfront : front n (⟨leading, types, m + 1, types'⟩ :: outer) =
        (front n outer ++ (unlessLeading leading (memberTokens types ++ [.bar]) ++ List.replicate m .opening)) ++
          [.opening] := by
      rw [front, Frame.front, List.replicate_succ']
      simp
    have hback : back n (⟨leading, types, m + 1, types'⟩ :: outer) =
        .closing :: ((List.replicate m .closing ++ memberTokens types') ++ back n outer) := by
      rw [back, Frame.back, List.replicate_succ]
      rfl
    have htokens : (wrap n (restore outer (Frame.plug ⟨leading, types, m, types'⟩ other.strip))).tokens =
        (front n outer ++ (unlessLeading leading (memberTokens types ++ [.bar]) ++ List.replicate m .opening)) ++
          (other.strip.tokens ++ ((List.replicate m .closing ++ memberTokens types') ++ back n outer)) := by
      rw [tokens_restore, Frame.tokens_plug, Frame.front, Frame.back]
      simp
    have hall : membersBefore (union :: ⟨leading, types, m + 1, types'⟩ :: outer) ++
        membersAfter (union :: ⟨leading, types, m + 1, types'⟩ :: outer) =
          membersBefore outer ++ ((allMembers types ++ (other.strip.members ++ allMembers types')) ++
            membersAfter outer) := by
      rw [← hmembers]
      simp [membersBefore, membersAfter]
    have hplug (hfits : (wrap m other.strip).Fits grammar (!types'.isEmpty)) :
        (wrap n (restore outer (Frame.plug ⟨leading, types, m, types'⟩ other.strip))).Valid grammar :=
      valid_wrap.mpr (valid_restore hrestore (valid_plug.mpr ⟨hshape, hbefore, ⟨hvalidOther, hfits⟩, hafter⟩))
    rw [preserved_iff_of_suggestion hfound (suggestion_parenthesized hsize hother hfront hback), hall]
    constructor
    · rintro ⟨type', hvalid', htext, -⟩
      cases m with
      | succ m => exact Or.inl (by simp)
      | zero =>
        have hlocal : Locally grammar none none type'.tokens := locally_tokens type' hvalid' nofun nofun
        rw [htext] at hlocal
        refine Or.inr (@stands_of_locally _ grammar _ other.strip (front n outer) (back n outer) hshape hvalidOther ?_)
        simpa using hlocal
    · intro hremovable
      by_cases hfits : (wrap m other.strip).Fits grammar (!types'.isEmpty)
      · exact ⟨_, hplug hfits, htokens, by rw [members_restore, Frame.members_plug]⟩
      · obtain ⟨rfl, hstands⟩ : m = 0 ∧ Stands grammar ⟨leading, types, m + 1, types'⟩ other.strip := by
          cases m with
          | zero => exact ⟨rfl, hremovable.resolve_left (by simp)⟩
          | succ m => exact absurd trivial hfits
        cases hstrip : other.strip with
        | undefined => exact absurd (by rw [hstrip]; trivial) hfits
        | parenthesized type => exact absurd (by rw [hstrip]; trivial) hfits
        | other type => exact absurd (by rw [hstrip] at hstands ⊢; exact hstands) hfits
        | union leading' inner =>
          rw [hstrip] at hstands hvalidOther
          obtain ⟨hvalidSplice, htokensSplice⟩ := splice hshape hbefore hafter hvalidOther hstands
          refine ⟨wrap n (restore outer (.union (leading || leading') (types ++ (inner ++ types')))),
            valid_wrap.mpr (valid_restore hrestore hvalidSplice), ?_, ?_⟩
          · rw [tokens_restore, htokensSplice]
            simp
          · rw [members_restore, members, members, allMembers_append, allMembers_append]

/-- The suggestion removes the first `undefined` and nothing else if and only if there are as many parentheses around it as
around the member in front of it (or behind it, if it is the first one), or, where only one other member is left, it can
stand in the place of the union. -/
theorem type_preserved_iff (hvalid : type.Valid grammar)
    (hfound : getUndefinedTypeNode type = some (n, union :: outer)) :
    Preserved grammar before after type n union outer ↔ Removable grammar union outer := by
  rw [Removable]
  cases hneighbour : union.neighbour with
  | none =>
    obtain ⟨hlast, hhead⟩ := Option.or_eq_none_iff.mp hneighbour
    have hnone : suggestion (before ++ .colon :: (type.tokens ++ after)) (before.length + 1 + (front n outer).length)
        union = none :=
      suggestion_one (List.getLast?_eq_none_iff.mp hlast) (List.head?_eq_none_iff.mp hhead)
    refine ⟨fun ⟨type', _, hsuggestion, _⟩ => ?_, False.elim⟩
    rw [hnone] at hsuggestion
    cases hsuggestion
  | some other =>
    dsimp only
    by_cases hsize : union.before.length + union.after.length = 1
    · rw [if_pos hsize]
      cases outer with
      | nil => exact ⟨fun _ => trivial, fun _ => preserved_two_alone hvalid hfound hsize hneighbour⟩
      | cons frame outer => exact preserved_two_nested hvalid hfound hsize hneighbour
    · rw [if_neg hsize]
      rcases List.eq_nil_or_concat union.before with hbefore | ⟨types, previous, hbefore⟩
      · have hafter : union.after.head? = some other := by
          rw [← hneighbour, Frame.neighbour, hbefore]
          rfl
        obtain ⟨types, hafter⟩ := List.head?_eq_some_iff.mp hafter
        refine preserved_first hvalid hfound hbefore hafter ?_
        rintro rfl
        exact hsize (by rw [hbefore, hafter]; rfl)
      · rw [List.concat_eq_append] at hbefore
        obtain rfl : previous = other := by
          rw [Frame.neighbour, hbefore, List.getLast?_concat] at hneighbour
          exact Option.some.inj hneighbour
        refine preserved_later hvalid hfound hbefore fun hnil => ?_
        obtain ⟨rfl, hafter⟩ := List.append_eq_nil_iff.mp hnil
        exact hsize (by rw [hbefore, hafter]; rfl)

end Removal

/-! ### Examples -/

/-- Types that can stand everywhere. -/
def simpleTypes (Other : Type) : Grammar Other := ⟨fun _ => True, fun _ => True, fun _ => trivial⟩

/-- In `1 | (2 | undefined)`. -/
theorem preserved_pair : Preserved (simpleTypes ℕ) [] [] (.union false [.other 1, .parenthesized (.union false
    [.other 2, .undefined])]) 0 ⟨false, [.other 2], 0, []⟩ [⟨false, [.other 1], 1, []⟩] := by
  have hpair : (TypeNode.union false [.other 2, .undefined]).Valid (simpleTypes ℕ) :=
    ⟨⟨List.cons_ne_nil _ _, Or.inr (le_refl _)⟩, ⟨trivial, trivial⟩, ⟨trivial, trivial⟩, trivial⟩
  have hvalid : (TypeNode.union false [.other 1, .parenthesized (.union false [.other 2, .undefined])]).Valid
      (simpleTypes ℕ) :=
    ⟨⟨List.cons_ne_nil _ _, Or.inr (le_refl _)⟩, ⟨trivial, trivial⟩, ⟨hpair, trivial⟩, trivial⟩
  exact (type_preserved_iff hvalid rfl).mpr (Or.inr trivial)

/-- In `(undefined) | 1 | 2` the first parenthesis stays. -/
theorem opening_parenthesis_stays : ¬ ∀ (Other : Type) (grammar : Grammar Other) (type : TypeNode Other) (n : ℕ)
    (union : Frame Other) (outer : List (Frame Other)) (before after : List (Token Other)), type.Valid grammar →
      getUndefinedTypeNode type = some (n, union :: outer) → Preserved grammar before after type n union outer := by
  intro h
  have hvalid : (TypeNode.union false [.parenthesized .undefined, .other 1, .other 2]).Valid (simpleTypes ℕ) :=
    ⟨⟨List.cons_ne_nil _ _, Or.inr (by decide)⟩, ⟨trivial, trivial⟩, ⟨trivial, trivial⟩, ⟨trivial, trivial⟩, trivial⟩
  have hpreserved := h ℕ (simpleTypes ℕ) _ 0 ⟨false, [], 1, [.other 1, .other 2]⟩ [] [] [] hvalid rfl
  exact absurd ((preserved_first hvalid rfl rfl rfl (List.cons_ne_nil _ _)).mp hpreserved) (by decide)

end SonarJavascript.Rules.RedundantOptional
