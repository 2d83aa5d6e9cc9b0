import SonarJavascript.Ast.Transport

/-!
# Trees that are decoded

`fits` is a condition on the tree of the parser: the record of every node is an instance of the class that
the position of the node expects, and no child is missing that the decoder does not check for. A node of
a type that the encoder does not know counts as an unknown node, which is an expression and nothing else.
`decodes_iff_fits`: the decoder returns a program exactly for the trees that fit.
-/

namespace SonarJavascript.Ast

open ListResults

def entryFits (clazz : ESClass) : Entry (ESClass → Bool) → Bool
  | .node _ fits => fits clazz
  | .hole _ => true

/-- The children of a component fit its class, and there is one where the decoder expects one. `children`
are the children of the node, each with the classes that it fits. -/
def Component.accepts (children : List (Entry (ESClass → Bool))) (c : Component) : Bool :=
  match c.slot.select children, c.unchecked with
  | [], true => false
  | found, _ => found.all (entryFits c.clazz)

mutual

def fits : Node → ESClass → Bool
  | .mk type _ scalars entries => fun clazz =>
    isInstance (readerFor type scalars).record clazz &&
      (readerFor type scalars).components.all (·.accepts (visited type (fitsEntries entries)))
  | .skipped _ child => fits child

def fitsEntries : List (Entry Node) → List (Entry (ESClass → Bool))
  | [] => []
  | .node key child :: rest => .node key (fits child) :: fitsEntries rest
  | .hole key :: rest => .hole key :: fitsEntries rest

end

theorem fitsEntries_eq_map (entries : List (Entry Node)) :
    fitsEntries entries = entries.map (Entry.map fits) := by
  induction entries with
  | nil => rfl
  | cons e rest ih =>
    cases e with
    | node key child => simp [fitsEntries, ih]
    | hole key => simp [fitsEntries, ih]

/-! ### When a constructor call returns -/

theorem isOk_cast {clazz : ESClass} {node : Tree} :
    (cast clazz node).isOk = true ↔ isInstance node.record clazz = true := by
  unfold cast
  split
  · rename_i hinstance
    simp [Except.toBool, hinstance]
  · rename_i hinstance
    simp [Except.toBool, hinstance]

theorem cast_eq_ok {clazz : ESClass} {node node' : Tree} (h : cast clazz node = .ok node') :
    node' = node ∧ isInstance node.record clazz = true := by
  unfold cast at h
  split at h
  · rename_i hinstance
    exact ⟨(Except.ok.inj h).symm, hinstance⟩
  · cases h

theorem record_construct {r : Reader} {loc : Option Location} {message : Wires}
    {children : List (Entry (Except DecodeError Tree))} {node : Tree}
    (h : construct r loc message children = .ok node) : node.record = r.record := by
  unfold construct at h
  cases hscalars : r.scalars.mapM fun c => c.read message with
  | error e => rw [hscalars] at h; cases h
  | ok scalars =>
    cases hentries : r.components.mapM fun c => c.read children with
    | error e => rw [hscalars, hentries] at h; cases h
    | ok entries =>
      rw [hscalars, hentries] at h
      obtain rfl := Except.ok.inj h
      rfl

theorem isOk_construct {r : Reader} {loc : Option Location} {message : Wires}
    {children : List (Entry (Except DecodeError Tree))} :
    (construct r loc message children).isOk = true ↔
      (∀ c ∈ r.scalars, (c.read message).isOk = true) ∧
        ∀ c ∈ r.components, (c.read children).isOk = true := by
  rw [← isOk_mapM, ← isOk_mapM]
  unfold construct
  cases r.scalars.mapM fun c => c.read message with
  | error e => simp [bind, Except.bind, Except.toBool]
  | ok scalars =>
    cases r.components.mapM fun c => c.read children with
    | error e => simp [bind, Except.bind, Except.toBool]
    | ok entries => simp [bind, Except.bind, pure, Except.pure, Except.toBool]

theorem isOk_read {c : ScalarComponent} (hkind : c.kind ≠ .bigInteger) (message : Wires) :
    (c.read message).isOk = true := by
  obtain ⟨name, field, kind⟩ := c
  cases kind with
  | bigInteger => exact absurd rfl hkind
  | string => rfl
  | boolean => rfl
  | int => rfl
  | operator e => rfl

theorem kind_ne_bigInteger {type : String} {node : Scalars} :
    ∀ c ∈ (readerFor type node).scalars, c.kind ≠ .bigInteger := by
  unfold readerFor
  cases protobufType type
  case LiteralType =>
    show ∀ c ∈ (literalReader node).scalars, c.kind ≠ .bigInteger
    unfold literalReader
    split
    all_goals decide
  case ExpressionStatementType =>
    dsimp only
    split
    all_goals decide
  all_goals
    dsimp only
    decide

/-- A program is no child: a missing child that is not checked for is never of the class. -/
theorem not_isInstance_program (type : NodeType) :
    ∀ r ∈ readersOf type, ∀ c ∈ r.components, c.unchecked = true →
      isInstance .Program c.clazz = false := by
  cases type
  all_goals decide

/-! ### The whole tree -/

/-- A component is read exactly when its children fit, given that of each child. -/
theorem isOk_component {c : Component} (hprogram : c.unchecked = true → isInstance .Program c.clazz = false)
    {entries : List (Entry Node)}
    (hchildren : ∀ key child, Entry.node key child ∈ entries → ∀ clazz,
      (transport child >>= cast clazz).isOk = true ↔ fits child clazz = true) :
    (c.read (entries.map (Entry.map transport))).isOk = true ↔
      c.accepts (entries.map (Entry.map fits)) = true := by
  have hsub : ∀ e ∈ c.slot.select entries, e ∈ entries := fun e he => (Slot.of_mem_select he).1
  have hfound : (((c.slot.select entries).map (Entry.map transport)).mapM (readEntry c.clazz)).isOk = true ↔
      ((c.slot.select entries).map (Entry.map fits)).all (entryFits c.clazz) = true := by
    rw [isOk_mapM, List.all_eq_true, List.forall_mem_map, List.forall_mem_map]
    refine forall_congr' fun e => forall_congr' fun he => ?_
    cases e with
    | hole key => simp [readEntry, entryFits, Except.toBool]
    | node key child =>
      have hchild := hchildren key child (hsub _ he) c.clazz
      show (do return Entry.node key (← cast c.clazz (← transport child))).isOk = true ↔ _
      rw [show entryFits c.clazz (Entry.map fits (.node key child)) = fits child c.clazz from rfl, ← hchild]
      cases transport child with
      | error e => rfl
      | ok node => exact isOk_bind_pure _ _
  unfold Component.read Component.accepts
  rw [Slot.select_map, Slot.select_map]
  cases hselect : c.slot.select entries with
  | cons first rest =>
    rw [hselect] at hfound
    exact hfound
  | nil =>
    cases hunchecked : c.unchecked with
    | false => simp [pure, Except.pure, Except.toBool]
    | true =>
      have hcast : cast c.clazz defaultInstance = .error (.illegalState c.clazz .Program) := by
        unfold cast
        rw [if_neg (by rw [show defaultInstance.record = .Program from rfl, hprogram hunchecked]; simp)]
        rfl
      simp [hcast, bind, Except.bind, Except.toBool]

theorem isOk_transport (n : Node) :
    ∀ clazz, (transport n >>= cast clazz).isOk = true ↔ fits n clazz = true := by
  induction n using Node.induct with
  | hskipped type child ih => exact ih
  | hmk type loc scalars entries ih =>
    intro clazz
    have hcomponents : ∀ c ∈ (readerFor type scalars).components,
        ((c.read (visited type (entries.map (Entry.map transport)))).isOk = true ↔
          c.accepts (visited type (fitsEntries entries)) = true) := fun c hc => by
      rw [fitsEntries_eq_map, visited_map, visited_map]
      refine isOk_component (not_isInstance_program _ _ (readerFor_mem type scalars) c hc) ?_
      exact fun key child hchild => ih key child (mem_of_mem_visited hchild)
    have hfits : fits (.mk type loc scalars entries) clazz = true ↔
        isInstance (readerFor type scalars).record clazz = true ∧
          ∀ c ∈ (readerFor type scalars).components,
            c.accepts (visited type (fitsEntries entries)) = true := by
      simp [fits]
    rw [transport_mk, isOk_bind, hfits]
    constructor
    · rintro ⟨node, hnode, hcast⟩
      have hok := isOk_construct.mp (isOk_iff.mpr ⟨node, hnode⟩)
      rw [isOk_cast, record_construct hnode] at hcast
      exact ⟨hcast, fun c hc => (hcomponents c hc).mp (hok.2 c hc)⟩
    · rintro ⟨hinstance, haccepts⟩
      obtain ⟨node, hnode⟩ := isOk_iff.mp (isOk_construct.mpr
        ⟨fun c hc => isOk_read (kind_ne_bigInteger c hc) _, fun c hc => (hcomponents c hc).mpr (haccepts c hc)⟩)
      exact ⟨node, hnode, isOk_cast.mpr (by rwa [record_construct hnode])⟩

/-- The decoder returns a program for the message of a tree, and throws nothing, exactly when the tree
fits. -/
theorem decodes_iff_fits {ast : Node} {message : Msg} (h : serializeInProtobuf ast = some message) :
    (∃ program, fromNode message (.record .Program) = .ok program ∧ program.record = .Program) ↔
      fits ast (.record .Program) = true := by
  rw [← isOk_transport]
  have hfrom : fromNode message (.record .Program) = transport ast >>= cast (.record .Program) := by
    rw [← serializeInProtobuf_eq_some h]
    rfl
  rw [hfrom, isOk_iff]
  refine exists_congr fun program => and_iff_left_of_imp fun hprogram => ?_
  obtain ⟨node, -, hcast⟩ := exists_of_bind_ok hprogram
  obtain ⟨rfl, hinstance⟩ := cast_eq_ok hcast
  simpa [isInstance] using hinstance

/-! ### Two programs -/

def lineOne : Location := ⟨⟨1, 0⟩, ⟨1, 14⟩⟩

def moduleOf (statement : Node) : Node :=
  .mk ⟨"Program", by decide⟩ lineOne [("sourceType", .string "module")] [.node "body" statement]

def expressionStatement (expression : Node) : Node :=
  .mk ⟨"ExpressionStatement", by decide⟩ lineOne [] [.node "expression" expression]

def identifier (name : String) : Node := .mk ⟨"Identifier", by decide⟩ lineOne [("name", .string name)] []

/-- `<a/>` -/
def elementStatement : Node :=
  expressionStatement (.mk ⟨"JSXElement", by decide⟩ lineOne []
    [.node "openingElement" (.mk ⟨"JSXOpeningElement", by decide⟩ lineOne [("selfClosing", .boolean true)]
      [.node "name" (.mk ⟨"JSXIdentifier", by decide⟩ lineOne [("name", .string "a")] [])])])

/-- `interface A {}` -/
def interfaceDeclaration : Node :=
  .mk ⟨"TSInterfaceDeclaration", by decide⟩ lineOne [("declare", .boolean false)]
    [.node "id" (identifier "A"),
      .node "body" (.mk ⟨"TSInterfaceBody", by decide⟩ lineOne [] [])]

/-- The element arrives as an unknown node, which is an expression. -/
theorem element_decoded :
    ∃ program, fromNode (encode (visitNode (moduleOf elementStatement))) (.record .Program) = .ok program ∧
      program.record = .Program :=
  (@decodes_iff_fits (moduleOf elementStatement) _ (by rfl)).mpr (by decide)

/-- The interface arrives as an unknown node, which is no statement. -/
theorem interfaceDeclaration_not_decoded :
    ∃ message, serializeInProtobuf (moduleOf interfaceDeclaration) = some message ∧
      fromNode message (.record .Program) =
        .error (.illegalState (.interface .DirectiveOrModuleDeclarationOrStatement) .UnknownNode) :=
  ⟨_, by rfl, by rfl⟩

end SonarJavascript.Ast
