import Mathlib.Data.List.DropRight
import Mathlib.Data.List.Forall2
import SonarJavascript.Embedded.Text

/-!
# Tokens for the detection of duplications

`getCpdTokens` leaves out the tokens of imports and of `require` declarations, and replaces those of string literals by
`LITERAL`. It knows these by their first character, so that the chunk of a template behind an expression, which begins with
a brace, keeps its text: two sources that are equal up to the content of strings and chunks have the same images just when
no such chunk differs (`images_eq_iff`).
-/

namespace SonarJavascript.Linter.CpdTokens

open Embedded CodeUnit

/-! ### Sources -/

/-- The tokens of a node, from an index to before another. -/
structure Span where
  first : ℕ
  stop : ℕ
  deriving DecidableEq

inductive Node
  | stringLiteral (span : Span) (value : Text)
  /-- Of another type, with its text. -/
  | literal (span : Span) (raw : Text)
  | TemplateLiteral (span : Span) (chunks : List Text) (expressions : List Node)
  | Identifier (span : Span) (name : String)
  | CallExpression (span : Span) (callee : Node) (arguments : List Node)
  | MemberExpression (span : Span) (object property : Node)
  | VariableDeclarator (span : Span) (id : Node) (init : Option Node)
  | VariableDeclaration (span : Span) (kind : String) (declarations : List Node)
  | ImportDeclaration (span : Span) (children : List Node)
  | JSXAttribute (span : Span) (name : Node) (value : Option Node)
  | other (type : String) (span : Span) (children : List Node)

namespace Node

def span : Node → Span
  | stringLiteral span _ | literal span _ | TemplateLiteral span _ _ | Identifier span _ | CallExpression span _ _
  | MemberExpression span _ _ | VariableDeclarator span _ _ | VariableDeclaration span _ _ | ImportDeclaration span _
  | JSXAttribute span _ _ | other _ span _ => span

def isLiteral : Node → Bool
  | stringLiteral _ _ | literal _ _ => true
  | _ => false

/-- Of a declarator. -/
def init : Node → Option Node
  | VariableDeclarator _ _ init => init
  | _ => none

mutual

/-- The nodes in the order of `visit`. -/
def visited : Node → List Node
  | stringLiteral span value => [stringLiteral span value]
  | literal span raw => [literal span raw]
  | TemplateLiteral span chunks expressions => TemplateLiteral span chunks expressions :: visitedAll expressions
  | Identifier span name => [Identifier span name]
  | CallExpression span callee arguments =>
    CallExpression span callee arguments :: visited callee ++ visitedAll arguments
  | MemberExpression span object property =>
    MemberExpression span object property :: visited object ++ visited property
  | VariableDeclarator span id init => VariableDeclarator span id init :: visited id ++ visitedOption init
  | VariableDeclaration span kind declarations =>
    VariableDeclaration span kind declarations :: visitedAll declarations
  | ImportDeclaration span children => ImportDeclaration span children :: visitedAll children
  | JSXAttribute span name value => JSXAttribute span name value :: visited name ++ visitedOption value
  | other type span children => other type span children :: visitedAll children

def visitedAll : List Node → List Node
  | [] => []
  | node :: nodes => visited node ++ visitedAll nodes

def visitedOption : Option Node → List Node
  | none => []
  | some node => visited node

end

mutual

/-- Without the values of string literals and of template chunks; those of attributes are kept. -/
def erase : Node → Node
  | stringLiteral span _ => stringLiteral span []
  | literal span raw => literal span raw
  | TemplateLiteral span chunks expressions =>
    TemplateLiteral span (chunks.map fun _ => []) (eraseAll expressions)
  | Identifier span name => Identifier span name
  | CallExpression span callee arguments => CallExpression span (erase callee) (eraseAll arguments)
  | MemberExpression span object property => MemberExpression span (erase object) (erase property)
  | VariableDeclarator span id init => VariableDeclarator span (erase id) (eraseOption init)
  | VariableDeclaration span kind declarations => VariableDeclaration span kind (eraseAll declarations)
  | ImportDeclaration span children => ImportDeclaration span (eraseAll children)
  | JSXAttribute span name value =>
    JSXAttribute span (erase name) (if value.any isLiteral then value else eraseOption value)
  | other type span children => other type span (eraseAll children)

def eraseAll : List Node → List Node
  | [] => []
  | node :: nodes => erase node :: eraseAll nodes

def eraseOption : Option Node → Option Node
  | none => none
  | some node => some (erase node)

end

end Node

structure Location where
  startLine : ℕ
  startCol : ℕ
  endLine : ℕ
  endCol : ℕ

structure Token where
  type : String
  value : Text
  loc : Location

structure SourceCode where
  ast : Node
  tokens : List Token

/-! ### The tokens for the detection -/

structure CpdToken where
  location : Location
  image : Text

/-- Indices of tokens. -/
structure Extracted where
  jsxTokens : List ℕ := []
  importTokens : List ℕ := []
  requireTokens : List ℕ := []

def getTokens (node : Node) : List ℕ := List.range' node.span.first (node.span.stop - node.span.first)

def isRequireCall : Node → Bool
  | .CallExpression _ (.Identifier _ name) _ => name = "require"
  | _ => false

/-- `require('y')`, `require('y')()`, `require('y').z` or `require('y').z()`. -/
def isRequireInit (init : Node) : Bool :=
  if isRequireCall init then true
  else match init with
    | .CallExpression _ callee _ =>
      if isRequireCall callee then true
      else match callee with
        | .MemberExpression _ object _ => isRequireCall object
        | _ => false
    | .MemberExpression _ object _ => isRequireCall object
    | _ => false

def extractToken (extracted : Extracted) (node : Node) : Extracted :=
  match node with
  | .JSXAttribute _ _ (some value) =>
    if value.isLiteral then { extracted with jsxTokens := extracted.jsxTokens ++ getTokens value } else extracted
  | .ImportDeclaration _ _ => { extracted with importTokens := extracted.importTokens ++ getTokens node }
  | .VariableDeclaration _ _ [declaration] =>
    if declaration.init.any isRequireInit then
      { extracted with requireTokens := extracted.requireTokens ++ getTokens node }
    else extracted
  | _ => extracted

def extractTokens (sourceCode : SourceCode) : Extracted := sourceCode.ast.visited.foldl extractToken {}

def trim (text : Text) : Text := (text.dropWhile isWhiteSpace).rdropWhile isWhiteSpace

def isStringLiteralToken (token : Token) : Bool :=
  (units "\"").isPrefixOf token.value || (units "'").isPrefixOf token.value || (units "`").isPrefixOf token.value

def cpdToken (extracted : Extracted) (token : Token) (index : ℕ) : Option CpdToken :=
  if (trim token.value).length = 0 then none
  else if index ∈ extracted.importTokens then none
  else if index ∈ extracted.requireTokens then none
  else if isStringLiteralToken token ∧ index ∉ extracted.jsxTokens then some ⟨token.loc, units "LITERAL"⟩
  else some ⟨token.loc, token.value⟩

def getCpdTokens (sourceCode : SourceCode) : List CpdToken :=
  sourceCode.tokens.zipIdx.filterMap fun (token, index) => cpdToken (extractTokens sourceCode) token index

def images (sourceCode : SourceCode) : List Text := (getCpdTokens sourceCode).map CpdToken.image

/-! ### Sources up to the content of strings -/

/-- The parts of a template around its expressions. -/
inductive Part
  | whole
  | head
  | middle
  | tail

namespace Part

def opening : Part → Text
  | whole | head => units "`"
  | middle | tail => units "\x7d"

def closing : Part → Text
  | whole | tail => units "`"
  | head | middle => units "$\x7b"

/-- Behind an expression. -/
def Follows (part : Part) : Prop := part = middle ∨ part = tail

end Part

/-- The texts of two tokens that are equal up to the content of a string literal, or of a chunk. -/
inductive SameKind : Text → Text → Prop
  | refl (text : Text) : SameKind text text
  | string {quote quote' : Text} (content content' : Text) (h : quote = units "\"" ∨ quote = units "'")
    (h' : quote' = units "\"" ∨ quote' = units "'") :
    SameKind (quote ++ content ++ quote) (quote' ++ content' ++ quote')
  | chunk (part : Part) (content content' : Text) :
    SameKind (part.opening ++ content ++ part.closing) (part.opening ++ content' ++ part.closing)

/-- Two sources that are equal up to the values of string literals and of chunks of templates. -/
structure Twins (source twin : SourceCode) : Prop where
  tokens : List.Forall₂ (fun token token' => token.type = token'.type ∧ SameKind token.value token'.value)
    source.tokens twin.tokens
  ast : source.ast.erase = twin.ast.erase
  /-- No value of an attribute, import or `require` is among the changed ones. -/
  kept : ∀ (index : ℕ) (token token' : Token), source.tokens[index]? = some token → twin.tokens[index]? = some token' →
    token.value ≠ token'.value → index ∉ (extractTokens source).jsxTokens ∧
      index ∉ (extractTokens source).importTokens ∧ index ∉ (extractTokens source).requireTokens

/-- The chunks behind the expressions of templates are not among the changed ones. -/
def ChunksKept (source twin : SourceCode) : Prop :=
  ∀ (index : ℕ) (token token' : Token) (part : Part) (content : Text), source.tokens[index]? = some token →
    twin.tokens[index]? = some token' → part.Follows → token.value = part.opening ++ content ++ part.closing →
    token.value = token'.value

/-! ### The extracted tokens -/

namespace Node

theorem isLiteral_erase (node : Node) : node.erase.isLiteral = node.isLiteral := by cases node <;> rfl

theorem span_erase (node : Node) : node.erase.span = node.span := by cases node <;> rfl

theorem init_erase (node : Node) : node.erase.init = eraseOption node.init := by cases node <;> rfl

end Node

theorem isRequireCall_erase (node : Node) : isRequireCall node.erase = isRequireCall node := by
  cases node with
  | CallExpression span callee arguments => cases callee <;> rfl
  | _ => rfl

theorem isRequireInit_erase (node : Node) : isRequireInit node.erase = isRequireInit node := by
  cases node with
  | CallExpression span callee arguments =>
    cases callee with
    | MemberExpression span object property =>
      have hobject := isRequireCall_erase object
      simp only [Node.erase, isRequireInit, hobject]
      rfl
    | CallExpression span callee arguments =>
      have hcallee := isRequireCall_erase (.CallExpression span callee arguments)
      simp only [Node.erase] at hcallee
      simp only [Node.erase, isRequireInit, hcallee]
      rfl
    | _ => rfl
  | MemberExpression span object property =>
    have hobject := isRequireCall_erase object
    simp only [Node.erase, isRequireInit, hobject]
    rfl
  | _ => rfl

theorem extractToken_erase (extracted : Extracted) (node : Node) :
    extractToken extracted node.erase = extractToken extracted node := by
  cases node with
  | JSXAttribute span name value =>
    cases value with
    | none => rfl
    | some value =>
      by_cases hliteral : value.isLiteral
      · simp only [Node.erase, Option.any_some, hliteral, if_true, extractToken]
      · simp only [Node.erase, Option.any_some, hliteral, Bool.false_eq_true, if_false, Node.eraseOption, extractToken,
          Node.isLiteral_erase]
  | ImportDeclaration span children => rfl
  | VariableDeclaration span kind declarations =>
    rcases declarations with - | ⟨declaration, - | ⟨second, declarations⟩⟩
    · rfl
    · have hinit : (declaration.erase.init).any isRequireInit = declaration.init.any isRequireInit := by
        rw [Node.init_erase]
        cases declaration.init with
        | none => rfl
        | some init => exact isRequireInit_erase init
      simp only [Node.erase, Node.eraseAll, extractToken, hinit]
      rfl
    · rfl
  | _ => rfl

mutual

theorem foldl_visited_erase (node : Node) (extracted : Extracted) :
    node.erase.visited.foldl extractToken extracted = node.visited.foldl extractToken extracted := by
  have hnode := extractToken_erase extracted node
  cases node with
  | stringLiteral span value => rfl
  | literal span raw => rfl
  | Identifier span name => rfl
  | TemplateLiteral span chunks expressions => exact foldl_visitedAll_erase expressions extracted
  | CallExpression span callee arguments =>
    simp only [Node.erase, Node.visited, List.cons_append, List.foldl_cons, List.foldl_append,
      foldl_visited_erase callee, foldl_visitedAll_erase arguments]
    rfl
  | MemberExpression span object property =>
    simp only [Node.erase, Node.visited, List.cons_append, List.foldl_cons, List.foldl_append,
      foldl_visited_erase object, foldl_visited_erase property]
    rfl
  | VariableDeclarator span id init =>
    simp only [Node.erase, Node.visited, List.cons_append, List.foldl_cons, List.foldl_append,
      foldl_visited_erase id, foldl_visitedOption_erase init]
    rfl
  | VariableDeclaration span kind declarations =>
    simp only [Node.erase] at hnode
    simp only [Node.erase, Node.visited, List.foldl_cons, hnode, foldl_visitedAll_erase declarations]
  | ImportDeclaration span children => exact foldl_visitedAll_erase children _
  | JSXAttribute span name value =>
    simp only [Node.erase] at hnode
    simp only [Node.erase, Node.visited, List.cons_append, List.foldl_cons, List.foldl_append, hnode,
      foldl_visited_erase name]
    split_ifs
    · rfl
    · rw [foldl_visitedOption_erase value]
  | other type span children => exact foldl_visitedAll_erase children extracted

theorem foldl_visitedAll_erase (nodes : List Node) (extracted : Extracted) :
    (Node.visitedAll (Node.eraseAll nodes)).foldl extractToken extracted =
      (Node.visitedAll nodes).foldl extractToken extracted := by
  cases nodes with
  | nil => rfl
  | cons node nodes =>
    rw [Node.eraseAll, Node.visitedAll, Node.visitedAll, List.foldl_append, List.foldl_append,
      foldl_visited_erase node, foldl_visitedAll_erase nodes]

theorem foldl_visitedOption_erase (node : Option Node) (extracted : Extracted) :
    (Node.visitedOption (Node.eraseOption node)).foldl extractToken extracted =
      (Node.visitedOption node).foldl extractToken extracted := by
  cases node with
  | none => rfl
  | some node => exact foldl_visited_erase node extracted

end

theorem Twins.extractTokens_eq {source twin : SourceCode} (h : Twins source twin) :
    extractTokens source = extractTokens twin := by
  rw [extractTokens, ← foldl_visited_erase source.ast, h.ast, foldl_visited_erase twin.ast, extractTokens]

/-! ### The images -/

section Image

variable {extracted : Extracted} {token token' : Token} {index : ℕ} {c : CodeUnit}

/-- If the token is not left out. -/
def imageOf (extracted : Extracted) (token : Token) (index : ℕ) : Option Text :=
  (cpdToken extracted token index).map CpdToken.image

theorem images_eq_filterMap (source : SourceCode) : images source =
    source.tokens.zipIdx.filterMap fun (token, index) => imageOf (extractTokens source) token index := by
  rw [images, getCpdTokens, List.map_filterMap]
  rfl

theorem imageOf_congr (h : token.value = token'.value) : imageOf extracted token index = imageOf extracted token' index := by
  have hstring : isStringLiteralToken token = isStringLiteralToken token' := by
    unfold isStringLiteralToken
    rw [h]
  unfold imageOf cpdToken
  rw [h, hstring]
  split_ifs <;> rfl

theorem trim_ne_nil {text : Text} (hhead : text.head? = some c) (hc : isWhiteSpace c = false) : trim text ≠ [] := by
  intro h
  obtain ⟨rest, rfl⟩ := List.head?_eq_some_iff.mp hhead
  rw [trim, List.dropWhile_cons_of_neg (by rw [hc]; exact Bool.false_ne_true), List.rdropWhile_eq_nil_iff] at h
  exact Bool.false_ne_true (hc.symm.trans (h c List.mem_cons_self))

/-- The characters with which a string literal begins. -/
def quotes : List CodeUnit := [34, 39, 96]

theorem isStringLiteralToken_iff (hhead : token.value.head? = some c) :
    isStringLiteralToken token = true ↔ c ∈ quotes := by
  obtain ⟨rest, hvalue⟩ := List.head?_eq_some_iff.mp hhead
  have hbegins : ∀ quote : CodeUnit, [quote].isPrefixOf (c :: rest) = (quote == c) := by
    intro quote
    rw [List.isPrefixOf_cons_cons, List.isPrefixOf_nil_left, Bool.and_true]
  have hunits : units "\"" = [34] ∧ units "'" = [39] ∧ units "`" = [96] := by decide
  rw [isStringLiteralToken, hvalue, hunits.1, hunits.2.1, hunits.2.2, hbegins, hbegins, hbegins, quotes]
  simp only [Bool.or_eq_true, beq_iff_eq, List.mem_cons, List.not_mem_nil, or_false, or_assoc, @eq_comm _ c]

theorem imageOf_of_changed (hkept : index ∉ extracted.jsxTokens ∧ index ∉ extracted.importTokens ∧
    index ∉ extracted.requireTokens) (hhead : token.value.head? = some c) (hc : isWhiteSpace c = false) :
    imageOf extracted token index = some (if c ∈ quotes then units "LITERAL" else token.value) := by
  have hlength : ¬ (trim token.value).length = 0 := fun h => trim_ne_nil hhead hc (List.length_eq_zero_iff.mp h)
  rw [imageOf, cpdToken, if_neg hlength, if_neg hkept.2.1, if_neg hkept.2.2]
  by_cases hquote : c ∈ quotes
  · rw [if_pos ⟨(isStringLiteralToken_iff hhead).mpr hquote, hkept.1⟩, if_pos hquote]
    rfl
  · rw [if_neg fun h => hquote ((isStringLiteralToken_iff hhead).mp h.1), if_neg hquote]
    rfl

theorem Part.head?_of_follows {part : Part} {content : Text} (h : part.Follows) :
    (part.opening ++ content ++ part.closing).head? = some 125 := by
  rcases h with rfl | rfl <;> rfl

theorem exists_head?_quote {quote content : Text} (h : quote = units "\"" ∨ quote = units "'") :
    ∃ c ∈ quotes, (quote ++ content ++ quote).head? = some c := by
  rcases h with rfl | rfl
  · exact ⟨34, by decide, rfl⟩
  · exact ⟨39, by decide, rfl⟩

/-- Texts that differ are those of string literals or of chunks, and only the ones behind an expression begin otherwise. -/
theorem SameKind.quoted_or_follows {value value' : Text} (h : SameKind value value') (hne : value ≠ value') :
    ((∃ c ∈ quotes, value.head? = some c) ∧ ∃ c ∈ quotes, value'.head? = some c) ∨
      ∃ (part : Part) (content content' : Text), part.Follows ∧ value = part.opening ++ content ++ part.closing ∧
        value' = part.opening ++ content' ++ part.closing := by
  cases h with
  | refl => exact absurd rfl hne
  | string content content' hquote hquote' => exact Or.inl ⟨exists_head?_quote hquote, exists_head?_quote hquote'⟩
  | chunk part content content' =>
    cases part with
    | whole => exact Or.inl ⟨⟨96, by decide, rfl⟩, 96, by decide, rfl⟩
    | head => exact Or.inl ⟨⟨96, by decide, rfl⟩, 96, by decide, rfl⟩
    | middle => exact Or.inr ⟨.middle, content, content', Or.inl rfl, rfl, rfl⟩
    | tail => exact Or.inr ⟨.tail, content, content', Or.inr rfl, rfl, rfl⟩

theorem isWhiteSpace_of_mem_quotes (h : c ∈ quotes) : isWhiteSpace c = false := by
  simp only [quotes, List.mem_cons, List.not_mem_nil, or_false] at h
  rcases h with rfl | rfl | rfl
  · rfl
  · rfl
  · rfl

/-- The token is left out with its twin, and they have the same image unless they are chunks behind an expression. -/
theorem imageOf_twin (hkind : SameKind token.value token'.value) (hkept : token.value ≠ token'.value →
    index ∉ extracted.jsxTokens ∧ index ∉ extracted.importTokens ∧ index ∉ extracted.requireTokens) :
    (imageOf extracted token index).isSome = (imageOf extracted token' index).isSome ∧
      (imageOf extracted token index = imageOf extracted token' index ↔ ∀ (part : Part) (content : Text), part.Follows →
        token.value = part.opening ++ content ++ part.closing → token.value = token'.value) := by
  by_cases hvalue : token.value = token'.value
  · rw [imageOf_congr hvalue]
    exact ⟨rfl, fun _ _ _ _ _ => hvalue, fun _ => rfl⟩
  rcases hkind.quoted_or_follows hvalue with ⟨⟨c, hc, hhead⟩, c', hc', hhead'⟩ | ⟨part, content, content', hpart, h, h'⟩
  · rw [imageOf_of_changed (hkept hvalue) hhead (isWhiteSpace_of_mem_quotes hc), if_pos hc,
      imageOf_of_changed (hkept hvalue) hhead' (isWhiteSpace_of_mem_quotes hc'), if_pos hc']
    refine ⟨rfl, fun _ part content hpart h => ?_, fun _ => rfl⟩
    rw [h, Part.head?_of_follows hpart, Option.some_inj] at hhead
    rw [← hhead] at hc
    exact absurd hc (by decide)
  · have hhead : token.value.head? = some 125 := by rw [h, Part.head?_of_follows hpart]
    have hhead' : token'.value.head? = some 125 := by rw [h', Part.head?_of_follows hpart]
    rw [imageOf_of_changed (hkept hvalue) hhead (by decide), imageOf_of_changed (hkept hvalue) hhead' (by decide),
      if_neg (by decide), if_neg (by decide), Option.some_inj]
    exact ⟨rfl, fun heq _ _ _ _ => heq, fun hall => hall part content hpart h⟩

end Image

theorem filterMap_eq_iff {α β : Type} {f g : α → Option β} {l l' : List α}
    (h : List.Forall₂ (fun a b => (f a).isSome = (g b).isSome) l l') :
    l.filterMap f = l'.filterMap g ↔ List.Forall₂ (fun a b => f a = g b) l l' := by
  induction h with
  | nil => exact ⟨fun _ => .nil, fun _ => rfl⟩
  | @cons a b l l' hhead htail ih =>
    rw [List.forall₂_cons, ← ih]
    cases ha : f a with
    | none =>
      have hb : g b = none := by rwa [ha, Option.isSome_none, eq_comm, Option.isSome_eq_false_iff, Option.isNone_iff_eq_none] at hhead
      rw [List.filterMap_cons_none ha, List.filterMap_cons_none hb, hb]
      exact ⟨fun heq => ⟨rfl, heq⟩, fun heq => heq.2⟩
    | some image =>
      obtain ⟨image', hb⟩ := Option.isSome_iff_exists.mp (hhead ▸ ha ▸ rfl : (g b).isSome = true)
      rw [List.filterMap_cons_some ha, List.filterMap_cons_some hb, hb, List.cons.injEq, Option.some_inj]

theorem forall₂_zipIdx_iff {α : Type} {R : α × ℕ → α × ℕ → Prop} {l l' : List α} (hlength : l.length = l'.length) :
    List.Forall₂ R l.zipIdx l'.zipIdx ↔ ∀ (index : ℕ) (a b : α), l[index]? = some a → l'[index]? = some b →
      R (a, index) (b, index) := by
  rw [List.forall₂_iff_get]
  constructor
  · rintro ⟨-, h⟩ index a b ha hb
    obtain ⟨hlt, rfl⟩ := List.getElem?_eq_some_iff.mp ha
    obtain ⟨hlt', rfl⟩ := List.getElem?_eq_some_iff.mp hb
    have hentry := h index (by rwa [List.length_zipIdx]) (by rwa [List.length_zipIdx])
    rwa [List.get_eq_getElem, List.get_eq_getElem, List.getElem_zipIdx, List.getElem_zipIdx, Nat.zero_add] at hentry
  · refine fun h => ⟨by rw [List.length_zipIdx, List.length_zipIdx, hlength], fun index hlt hlt' => ?_⟩
    rw [List.get_eq_getElem, List.get_eq_getElem, List.getElem_zipIdx, List.getElem_zipIdx, Nat.zero_add]
    exact h index _ _ (List.getElem?_eq_getElem _) (List.getElem?_eq_getElem _)

section Twins

variable {source twin : SourceCode} {index : ℕ} {token token' : Token}

theorem Twins.sameKind (h : Twins source twin) (hget : source.tokens[index]? = some token)
    (hget' : twin.tokens[index]? = some token') : SameKind token.value token'.value := by
  obtain ⟨hlt, rfl⟩ := List.getElem?_eq_some_iff.mp hget
  obtain ⟨hlt', rfl⟩ := List.getElem?_eq_some_iff.mp hget'
  exact ((List.forall₂_iff_get.mp h.tokens).2 index hlt hlt').2

theorem Twins.imageOf (h : Twins source twin) (hget : source.tokens[index]? = some token)
    (hget' : twin.tokens[index]? = some token') :
    (imageOf (extractTokens source) token index).isSome = (CpdTokens.imageOf (extractTokens source) token' index).isSome ∧
      (CpdTokens.imageOf (extractTokens source) token index = CpdTokens.imageOf (extractTokens source) token' index ↔
        ∀ (part : Part) (content : Text), part.Follows → token.value = part.opening ++ content ++ part.closing →
          token.value = token'.value) :=
  imageOf_twin (h.sameKind hget hget') (h.kept index token token' hget hget')

end Twins

/-- String contents do not influence the images. -/
theorem images_eq_iff (source twin : SourceCode) (h : Twins source twin) :
    images source = images twin ↔ ChunksKept source twin := by
  have hlength := (List.forall₂_iff_get.mp h.tokens).1
  rw [images_eq_filterMap, images_eq_filterMap, ← h.extractTokens_eq, filterMap_eq_iff, forall₂_zipIdx_iff hlength]
  · constructor
    · intro himages index token token' part content hget hget'
      exact (h.imageOf hget hget').2.mp (himages index token token' hget hget') part content
    · intro hkept index token token' hget hget'
      exact (h.imageOf hget hget').2.mpr fun part content => hkept index token token' part content hget hget'
  · rw [forall₂_zipIdx_iff hlength]
    exact fun index token token' hget hget' => (h.imageOf hget hget').1

/-- A template with an expression in front of `text`. -/
def templateSource (text : Text) : SourceCode where
  ast := .other "Program" ⟨0, 3⟩ [.other "ExpressionStatement" ⟨0, 3⟩
    [.TemplateLiteral ⟨0, 3⟩ [[], text] [.Identifier ⟨1, 2⟩ "a"]]]
  tokens := [⟨"Template", units "`$\x7b", ⟨1, 0, 1, 3⟩⟩, ⟨"Identifier", units "a", ⟨1, 3, 1, 4⟩⟩,
    ⟨"Template", units "\x7d" ++ text ++ units "`", ⟨1, 4, 1, 6 + text.length⟩⟩]

theorem twins_templateSource (text text' : Text) : Twins (templateSource text) (templateSource text') where
  tokens := .cons ⟨rfl, .refl _⟩ (.cons ⟨rfl, .refl _⟩ (.cons ⟨rfl, .chunk .tail text text'⟩ .nil))
  ast := rfl
  kept := fun _ _ _ _ _ _ => ⟨List.not_mem_nil, List.not_mem_nil, List.not_mem_nil⟩

theorem images_eq_iff_templateSource : images (templateSource (units "x")) = images (templateSource (units "y")) ↔
    ChunksKept (templateSource (units "x")) (templateSource (units "y")) :=
  images_eq_iff _ _ (twins_templateSource _ _)

theorem chunk_changes_image : ¬ ∀ source twin, Twins source twin → images source = images twin := by
  intro h
  have himages := h _ _ (twins_templateSource (units "x") (units "y"))
  exact absurd himages (by decide)

end SonarJavascript.Linter.CpdTokens
