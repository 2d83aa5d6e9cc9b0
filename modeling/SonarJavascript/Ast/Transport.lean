import SonarJavascript.Ast.Agreement
import SonarJavascript.Lib.ListResults

/-!
# Transport of a tree

`transport` is a node encoded and decoded again. `transport_mk` computes it from the properties of the
node and the transport of its children, so that what holds of a whole tree follows by induction over the
tree. `fits` says, of the tree of the parser, that every child has the class that its position expects.
-/

namespace SonarJavascript.Ast

open ListResults

def transport (n : Node) : Except DecodeError Tree :=
  build (encode (visitNode n))

/-! ### The reader of a node -/

/-- The reader of a literal. A bigint arrives without its text, as the name of its field differs. -/
def literalReader (node : Scalars) : Reader :=
  match node.lookup "bigint", node.lookup "regex", node.lookup "value" with
  | some _, _, _ => simpleLiteral "valueString" .string
  | none, some (.regex _ _), _ => regExpLiteral
  | none, _, some (.number _) => simpleLiteral "valueNumber" .int
  | none, _, some (.boolean _) => simpleLiteral "valueBoolean" .boolean
  | none, _, _ => simpleLiteral "valueString" .string

def isDirective (node : Scalars) : Bool :=
  match node.lookup "directive" with
  | some (.string _) => true
  | _ => false

/-- The reader that a node meets. -/
def readerFor (type : String) (node : Scalars) : Reader :=
  match protobufType type with
  | .ExpressionStatementType =>
    if isDirective node then fromDirective else fromExpressionStatementType
  | .LiteralType => literalReader node
  | t => readerOf (fun _ => []) t

theorem eq_of_append_eq {a b c : String} (h : a ++ c = b ++ c) : a = b := by
  have hlist := congrArg String.toList h
  rw [String.toList_append, String.toList_append] at hlist
  exact String.toList_inj.mp (List.append_cancel_right hlist)

theorem type_eq_of_protobufType {type other : String} {t : NodeType}
    (hother : ∀ p ∈ nodeTypeEnum, p.2 = t → p.1 = other ++ "Type") (ht : t ≠ .UnknownNodeType)
    (h : protobufType type = t) : type = other := by
  unfold protobufType at h
  cases hlookup : nodeTypeEnum.lookup (type ++ "Type") with
  | none =>
    rw [hlookup] at h
    exact absurd h.symm ht
  | some t' =>
    rw [hlookup] at h
    exact eq_of_append_eq (hother _ (mem_of_lookup hlookup) h)

theorem eq_literal {type : String} (h : protobufType type = .LiteralType) : type = "Literal" :=
  type_eq_of_protobufType (by decide) (by decide) h

theorem eq_expressionStatement {type : String} (h : protobufType type = .ExpressionStatementType) :
    type = "ExpressionStatement" :=
  type_eq_of_protobufType (by decide) (by decide) h

/-! ### What a node is received as -/

/-- The member of `oneof node` that is set. -/
def fieldOf (type : String) : Option String :=
  if (nodeFields.lookup (lowerCaseFirstLetter type)).isSome then some (lowerCaseFirstLetter type)
  else none

/-- The scalar fields that are set. -/
def received (type : String) (node : Scalars) : Wires :=
  match nodeFields.lookup (lowerCaseFirstLetter type) with
  | some m => m.encodeScalars (shapeScalars type node)
  | none => []

/-- The children of a node of a type that has a visitor. -/
def visited {α : Type} (type : String) (entries : List (Entry α)) : List (Entry α) :=
  if (switch.lookup type).isSome then entries else []

theorem visited_map {α β : Type} (f : α → β) (type : String) (entries : List (Entry α)) :
    visited type (entries.map (Entry.map f)) = (visited type entries).map (Entry.map f) := by
  unfold visited
  split
  · rfl
  · rfl

theorem mem_of_mem_visited {α : Type} {type : String} {entries : List (Entry α)} {e : Entry α}
    (h : e ∈ visited type entries) : e ∈ entries := by
  unfold visited at h
  split at h
  · exact h
  · cases h

/-- The fields of the message for a literal. -/
def literalMessage : Message :=
  ⟨[("raw", .string), ("bigint", .string), ("pattern", .string), ("flags", .string),
      ("valueString", .string), ("valueBoolean", .bool), ("valueNumber", .int32)], []⟩

theorem received_literal (node : Scalars) :
    received "Literal" node = literalMessage.encodeScalars (visitLiteral.fields node) := by
  have hfields : nodeFields.lookup (lowerCaseFirstLetter "Literal") = some literalMessage := by rfl
  simp only [received, hfields]
  rfl

theorem fieldOf_literal : fieldOf "Literal" = some "literal" := by
  decide

theorem received_expressionStatement (node : Scalars) :
    (received "ExpressionStatement" node).lookup "directive" =
      (node.lookup "directive").bind FieldType.string.encode := by
  have hfields : nodeFields.lookup (lowerCaseFirstLetter "ExpressionStatement") =
      some ⟨[("directive", .string)], [one "expression"]⟩ := by rfl
  have hvisitor : shapeScalars "ExpressionStatement" node =
      visitExpressionStatement.fields node := rfl
  simp only [received, hfields, hvisitor]
  rw [lookup_encodeScalars]
  show ((visitExpressionStatement.fields node).lookup "directive").bind FieldType.string.encode = _
  have hcopied : (visitExpressionStatement.fields node).lookup "directive" = node.lookup "directive" := by
    show (copy ["directive"] (fun key => node.lookup key) ++ []).lookup "directive" = _
    rw [List.append_nil, lookup_copy (by simp)]
  rw [hcopied]

theorem fieldOf_expressionStatement :
    fieldOf "ExpressionStatement" = some "expressionStatement" := by
  decide

theorem lookup_visitLiteral (node : Scalars) {field : String} (hfield : field ≠ "raw") :
    (visitLiteral.fields node).lookup field = (translateLiteral node).lookup field := by
  show (copy ["raw"] (fun key => node.lookup key) ++ translateLiteral node).lookup field = _
  rw [List.lookup_append, lookup_copy_of_notMem (by simpa using hfield), Option.none_or]

theorem lookup_received_literal (node : Scalars) {field : String} (hfield : field ≠ "raw") :
    (received "Literal" node).lookup field =
      (literalMessage.scalars.lookup field).bind fun type =>
        ((translateLiteral node).lookup field).bind type.encode := by
  rw [received_literal, lookup_encodeScalars, ← lookup_visitLiteral node hfield]
  rfl

/-- The fields of a bigint: the text is under a key that no field of the message has. -/
theorem lookup_translateLiteral_bigint {node : Scalars} {text : Scalar}
    (h : node.lookup "bigint" = some text) {field : String} (hvalue : field ≠ "value")
    (hbigint : field ≠ "bigInt") : (translateLiteral node).lookup field = none := by
  have hfields : translateLiteral node =
      copy ["value"] (fun key => node.lookup key) ++ [("bigInt", text)] := by
    simp [translateLiteral, h]
  rw [hfields, List.lookup_append, lookup_copy_of_notMem (by simpa using hvalue)]
  simp [List.lookup_cons, beq_false_of_ne hbigint]

theorem translateLiteral_simple {node : Scalars} (hbigint : node.lookup "bigint" = none)
    (hregex : ∀ pattern flags, node.lookup "regex" ≠ some (.regex pattern flags)) :
    translateLiteral node = translateValue (node.lookup "value") := by
  unfold translateLiteral
  rw [hbigint]
  split
  · rename_i hsome
    cases hsome
  · rename_i hsome
    exact absurd hsome (hregex _ _)
  · rfl

theorem literalReader_simple {node : Scalars} (hbigint : node.lookup "bigint" = none)
    (hregex : ∀ pattern flags, node.lookup "regex" ≠ some (.regex pattern flags)) :
    literalReader node =
      match node.lookup "value" with
      | some (.number _) => simpleLiteral "valueNumber" .int
      | some (.boolean _) => simpleLiteral "valueBoolean" .boolean
      | _ => simpleLiteral "valueString" .string := by
  unfold literalReader
  rw [hbigint]
  split
  · rename_i h
    cases h
  · rename_i hsome
    exact absurd hsome (hregex _ _)
  · rename_i hvalue _
    rw [hvalue]
  · rename_i hvalue _
    rw [hvalue]
  · rename_i hnumber hboolean
    split
    · rename_i hvalue
      exact absurd hvalue (hnumber _)
    · rename_i hvalue
      exact absurd hvalue (hboolean _)
    · rfl

theorem fromLiteralType_received (node : Scalars) :
    fromLiteralType (received "Literal" node) = literalReader node := by
  have hlookup : ∀ field, field ≠ "raw" → hasField (received "Literal" node) field =
      ((literalMessage.scalars.lookup field).bind fun type =>
        ((translateLiteral node).lookup field).bind type.encode).isSome := fun field hfield => by
    rw [hasField, lookup_received_literal node hfield]
  unfold fromLiteralType literalReader
  rw [hlookup "bigint" (by decide), hlookup "pattern" (by decide), hlookup "valueNumber" (by decide),
    hlookup "valueBoolean" (by decide)]
  cases hbigint : node.lookup "bigint" with
  | some text =>
    rw [lookup_translateLiteral_bigint hbigint (by decide) (by decide),
      lookup_translateLiteral_bigint hbigint (by decide) (by decide),
      lookup_translateLiteral_bigint hbigint (by decide) (by decide),
      lookup_translateLiteral_bigint hbigint (by decide) (by decide)]
    simp
  | none =>
    by_cases hregex : ∃ pattern flags, node.lookup "regex" = some (.regex pattern flags)
    · obtain ⟨pattern, flags, hregex⟩ := hregex
      have hfields : translateLiteral node =
          [("flags", .string flags), ("pattern", .string pattern)] := by
        simp [translateLiteral, hbigint, hregex]
      rw [hfields, hregex]
      rfl
    · have hregex : ∀ pattern flags, node.lookup "regex" ≠ some (.regex pattern flags) :=
        fun pattern flags h => hregex ⟨pattern, flags, h⟩
      have hreader := literalReader_simple hbigint hregex
      unfold literalReader at hreader
      rw [hbigint] at hreader
      rw [hreader, translateLiteral_simple hbigint hregex]
      cases node.lookup "value" with
      | none => rfl
      | some value => cases value <;> rfl

theorem readerOf_received (type : String) (node : Scalars) :
    readerOf (getMessage (fieldOf type) (received type node)) (protobufType type) =
      readerFor type node := by
  unfold readerFor
  cases h : protobufType type
  case ExpressionStatementType =>
    obtain rfl := eq_expressionStatement h
    show (if hasField (getMessage _ _ "expressionStatement") "directive" then _ else _) = _
    rw [fieldOf_expressionStatement, getMessage, if_pos rfl, hasField, received_expressionStatement]
    unfold isDirective
    cases node.lookup "directive" with
    | none => rfl
    | some directive => cases directive <;> rfl
  case LiteralType =>
    obtain rfl := eq_literal h
    show fromLiteralType (getMessage _ _ "literal") = _
    rw [fieldOf_literal, getMessage, if_pos rfl, fromLiteralType_received]
  all_goals rfl

theorem readerFor_mem (type : String) (node : Scalars) :
    readerFor type node ∈ readersOf (protobufType type) := by
  rw [← readerOf_received]
  exact readerOf_mem _ _

/-! ### The transport of a node -/

/-- A constructor call depends on the children in the slots of its components. -/
theorem construct_congr {r : Reader} {loc : Option Location} {message : Wires}
    {children children' : List (Entry (Except DecodeError Tree))}
    (h : ∀ c ∈ r.components, c.slot.select children = c.slot.select children') :
    construct r loc message children = construct r loc message children' := by
  have hread : ∀ c ∈ r.components, c.read children = c.read children' := fun c hc => by
    unfold Component.read
    rw [h c hc]
  unfold construct
  rw [mapM_congr hread]

/-- A component reads what the property of the node holds. -/
theorem select_received {type : String} {m : Message}
    (hm : nodeFields.lookup (lowerCaseFirstLetter type) = some m) {r : Reader}
    (hr : r ∈ readersOf (protobufType type)) {c : Component} (hc : c ∈ r.components) {α : Type}
    (entries : List (Entry α)) :
    c.slot.select (Slot.project m.nodes (shapeEntries type entries)) =
      c.slot.select (visited type entries) := by
  cases hv : switch.lookup type with
  | none =>
    have hproject : Slot.project m.nodes ([] : List (Entry α)) = [] :=
      List.flatMap_eq_nil_iff.mpr fun slot _ => Slot.select_nil slot
    simp [shapeEntries, visited, hv, hproject]
  | some v =>
    obtain ⟨-, hslot, m', hm', hnode⟩ := components_agree _ (mem_of_lookup hv) r hr c hc
    obtain rfl : m = m' := Option.some.inj (hm.symm.trans hm')
    rw [Slot.select_project (nodup_nodes _ (mem_of_lookup hm)) hnode]
    simp only [shapeEntries, visited, hv, Option.isSome_some, if_true]
    exact Slot.select_project (nodup_slots _ (mem_of_lookup hv)) hslot entries

/-- A reader with another getter has no components, unless nothing has been visited. -/
theorem select_nil_of_getter_ne {type : String} {r : Reader} (hr : r ∈ readersOf (protobufType type))
    (hgetter : fieldOf type ≠ some r.getter) {c : Component} (hc : c ∈ r.components) {α : Type}
    (entries : List (Entry α)) :
    c.slot.select ([] : List (Entry α)) = c.slot.select (visited type entries) := by
  cases hv : switch.lookup type with
  | none => simp [visited, hv]
  | some v =>
    obtain ⟨hkey, -, m, hm, -⟩ := components_agree _ (mem_of_lookup hv) r hr c hc
    have hfield : fieldOf type = some r.getter := by
      rw [fieldOf, Option.mem_def.mp hm, hkey]
      rfl
    exact absurd hfield hgetter

theorem transport_mk (type : TypeName) (loc : Location) (scalars : Scalars)
    (entries : List (Entry Node)) :
    transport (.mk type loc scalars entries) =
      construct (readerFor type scalars) (some loc)
        (getMessage (fieldOf type) (received type scalars) (readerFor type scalars).getter)
        (visited type (entries.map (Entry.map transport))) := by
  have hchildren : ∀ slots, buildEntries (Slot.project slots
      (encodeEntries (shapeEntries type (visitEntries entries)))) =
        Slot.project slots (shapeEntries type (entries.map (Entry.map transport))) := fun slots => by
    rw [buildEntries_eq_map, encodeEntries_eq_map, visitEntries_eq_map, shapeEntries_map,
      Slot.project_map, Slot.project_map, shapeEntries_map, Slot.project_map]
    simp only [List.map_map, Function.comp_def, Entry.map_map]
    rfl
  have hreader := readerOf_received type scalars
  have hmem := readerFor_mem type scalars
  show build (encode (.mk (protobufType type) loc (lowerCaseFirstLetter type) (shapeScalars type scalars)
    (shapeEntries type (visitEntries entries)))) = _
  rw [encode]
  cases hm : nodeFields.lookup (lowerCaseFirstLetter type) with
  | none =>
    have hfield : fieldOf type = none := by simp [fieldOf, hm]
    have hdefault : getMessage none (received type scalars) = getMessage none [] :=
      funext fun _ => rfl
    rw [hfield, hdefault] at hreader
    rw [hfield]
    simp only [build, hreader]
    rw [if_neg (by simp)]
    exact construct_congr fun c hc => select_nil_of_getter_ne hmem (by simp [hfield]) hc _
  | some m =>
    have hfield : fieldOf type = some (lowerCaseFirstLetter type) := by simp [fieldOf, hm]
    have hreceived : received type scalars = m.encodeScalars (shapeScalars type scalars) := by
      simp [received, hm]
    simp only [build, hchildren, ← hreceived, ← hfield, hreader]
    by_cases hgetter : fieldOf type = some (readerFor type scalars).getter
    · rw [if_pos hgetter, getMessage, if_pos hgetter]
      exact construct_congr fun c hc => select_received hm hmem hc _
    · rw [if_neg hgetter, getMessage, if_neg hgetter]
      exact construct_congr fun c hc => select_nil_of_getter_ne hmem hgetter hc _

end SonarJavascript.Ast
