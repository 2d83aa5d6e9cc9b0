import Mathlib.Data.List.Perm.Basic
import SonarJavascript.Lib.Json
import SonarJavascript.Lib.Substitution

/-!
# Messages with secondary locations

`expandMessage` replaces the placeholders of a message one key after the other, so what one value brings in is
replaced by the next. `toEncodedMessage` puts the message, the secondary locations and the cost into a JSON text that
reaches `decodeSonarRuntime` through the placeholder `sonarRuntimeData`, unless the data of the rule has that key.
-/

namespace SonarJavascript.Linter.EncodedMessage

open Substitution

abbrev JsString := List ℕ

def units (s : String) : JsString := s.toList.map Char.toNat

/-! ### Expanding -/

/-- A value of the data: null, undefined, or one with the text that its `toString` gives. -/
inductive DataValue
  | text (s : JsString)
  | null
  | undefined
  deriving DecidableEq, Repr

inductive JsError
  | typeError
  | error
  deriving DecidableEq, Repr

def DataValue.toString : DataValue → Except JsError JsString
  | .text s => .ok s
  | .null | .undefined => .error .typeError

def placeholder (key : JsString) : JsString := [123, 123] ++ key ++ [125, 125]

def replaceAll (target search replacement : JsString) : JsString :=
  replacement.intercalate (split search target)

/-- The loop over the entries of the data. -/
def expandMessage (message : JsString) : List (JsString × DataValue) → Except JsError JsString
  | [] => .ok message
  | (key, value) :: rest =>
    match value.toString with
    | .error e => .error e
    | .ok text => expandMessage (replaceAll message (placeholder key) text) rest

/-- The entries of a record, which has no key twice. -/
structure Data where
  entries : List (JsString × DataValue)
  nodup : (entries.map Prod.fst).Nodup

/-- The text of a value, also where `toString` throws. -/
def DataValue.asText : DataValue → JsString
  | .text s => s
  | .null => units "null"
  | .undefined => units "undefined"

/-- The placeholder of an entry with its value. -/
def entryOf (entry : JsString × DataValue) : Substitution.Entry ℕ := ⟨placeholder entry.1, entry.2.asText⟩

/-- All placeholders at once. -/
def expandAtOnce (data : Data) (message : JsString) : JsString :=
  substitute (data.entries.map entryOf) message

/-! ### Placeholders do not overlap -/

/-- A name has no braces. -/
def IsName (key : JsString) : Prop := ∀ unit ∈ key, unit ≠ 123 ∧ unit ≠ 125

theorem placeholder_ne_nil (key : JsString) : placeholder key ≠ [] := List.cons_ne_nil _ _

theorem length_placeholder (key : JsString) : (placeholder key).length = key.length + 4 := by
  simp [placeholder]

theorem getElem?_placeholder_open {key : JsString} (h : IsName key) {i : ℕ} :
    (placeholder key)[i]? = some 123 ↔ i < 2 := by
  rcases i with _ | _ | i
  · simp [placeholder]
  · simp [placeholder]
  · have hrest : ∀ unit ∈ key ++ [125, 125], unit ≠ 123 := by
      intro unit hunit
      rcases List.mem_append.mp hunit with hunit | hunit
      · exact (h unit hunit).1
      · simp only [List.mem_cons, List.not_mem_nil, or_false, or_self] at hunit
        omega
    constructor
    · intro hget
      have hget : (key ++ [125, 125])[i]? = some 123 := by simpa [placeholder] using hget
      exact absurd rfl (hrest 123 (List.mem_of_getElem? hget))
    · omega

theorem getElem?_middle {l m r : JsString} {i : ℕ} (h : i < m.length) :
    (l ++ m ++ r)[l.length + i]? = m[i]? := by
  rw [List.append_assoc, List.getElem?_append_right (Nat.le_add_right _ _), Nat.add_sub_cancel_left,
    List.getElem?_append_left h]

theorem prefix_key {a b : JsString} {r y : JsString} (ha : IsName a) (hb : IsName b)
    (h : a ++ 125 :: 125 :: r = b ++ 125 :: 125 :: y) : a = b := by
  induction a generalizing b with
  | nil =>
    cases b with
    | nil => rfl
    | cons unit b => exact absurd (List.cons.inj h).1.symm (hb unit List.mem_cons_self).2
  | cons unit a ih =>
    cases b with
    | nil => exact absurd (List.cons.inj h).1 (ha unit List.mem_cons_self).2
    | cons unit' b =>
      obtain ⟨rfl, hrest⟩ := List.cons.inj h
      have hsame := ih (fun u hu => ha u (List.mem_cons_of_mem _ hu)) (fun u hu => hb u (List.mem_cons_of_mem _ hu)) hrest
      exact congrArg _ hsame

theorem end_le_of_start_lt {a b l r x y : JsString} (ha : IsName a)
    (h : l ++ placeholder a ++ r = x ++ placeholder b ++ y) (hlt : l.length < x.length) :
    l.length + (placeholder a).length ≤ x.length := by
  by_contra hnot
  obtain ⟨i, hi⟩ : ∃ i, x.length = l.length + i := ⟨x.length - l.length, by omega⟩
  have hfirst : (placeholder a)[i]? = some 123 := by
    rw [← getElem?_middle (l := l) (r := r) (by omega), h, ← hi]
    exact getElem?_middle (i := 0) (by simp [placeholder])
  obtain rfl : i = 1 := by
    have := (getElem?_placeholder_open ha).mp hfirst
    omega
  have hsecond : (placeholder a)[2]? = some 123 := by
    rw [← getElem?_middle (l := l) (r := r) (by simp [placeholder]), h]
    have : l.length + 2 = x.length + 1 := by omega
    rw [this]
    exact getElem?_middle (i := 1) (by simp [placeholder])
  exact absurd ((getElem?_placeholder_open ha).mp hsecond) (by omega)

theorem placeholder_positions {a b l r x y : JsString} (ha : IsName a) (hb : IsName b)
    (h : l ++ placeholder a ++ r = x ++ placeholder b ++ y) :
    x.length + (placeholder b).length ≤ l.length ∨ (x.length = l.length ∧ a = b) ∨
      l.length + (placeholder a).length ≤ x.length := by
  rcases Nat.lt_trichotomy l.length x.length with hlt | heq | hlt
  · exact .inr (.inr (end_le_of_start_lt ha h hlt))
  · rw [List.append_assoc, List.append_assoc] at h
    obtain ⟨rfl, hrest⟩ := List.append_inj h heq
    exact .inr (.inl ⟨rfl, prefix_key ha hb (r := r) (y := y) (by simpa [placeholder] using hrest)⟩)
  · exact .inl (end_le_of_start_lt hb h.symm hlt)

/-! ### Expanding at once -/

/-- The keys of the data have no braces. -/
def Data.Named (data : Data) : Prop := ∀ entry ∈ data.entries, IsName entry.1

theorem placeholder_injective {a b : JsString} (ha : IsName a) (hb : IsName b) (h : placeholder a = placeholder b) :
    a = b := by
  have heq : [] ++ placeholder a ++ [] = [] ++ placeholder b ++ [] := by
    rw [h]
  rcases placeholder_positions ha hb heq with hle | ⟨-, hab⟩ | hle
  · rw [length_placeholder, List.length_nil] at hle
    omega
  · exact hab
  · rw [length_placeholder, List.length_nil] at hle
    omega

theorem separate (data : Data) (hnamed : data.Named) : Separate (data.entries.map entryOf) where
  ne_nil := by
    intro entry hentry
    obtain ⟨⟨key, value⟩, -, rfl⟩ := List.mem_map.mp hentry
    exact placeholder_ne_nil key
  apart := by
    intro a ha b hb hne l r x y hxy
    obtain ⟨⟨key, value⟩, hkey, rfl⟩ := List.mem_map.mp ha
    obtain ⟨⟨key', value'⟩, hkey', rfl⟩ := List.mem_map.mp hb
    rcases placeholder_positions (hnamed _ hkey) (hnamed _ hkey') hxy with hle | ⟨-, rfl⟩ | hle
    · exact .inl hle
    · have hsame : ((key, value) : JsString × DataValue) = (key, value') :=
        List.inj_on_of_nodup_map data.nodup hkey hkey' rfl
      exact absurd (congrArg entryOf hsame) hne
    · exact .inr hle
  self := by
    intro a ha l r x y hxy
    obtain ⟨⟨key, value⟩, hkey, rfl⟩ := List.mem_map.mp ha
    rcases placeholder_positions (hnamed _ hkey) (hnamed _ hkey) hxy with hle | ⟨heq, -⟩ | hle
    · exact .inl hle
    · exact .inr (.inl heq)
    · exact .inr (.inr hle)

theorem nodup_entries (data : Data) (hnamed : data.Named) : (data.entries.map entryOf).Nodup := by
  have hnodup : data.entries.Nodup := List.Nodup.of_map _ data.nodup
  refine hnodup.map_on fun a ha b hb heq => ?_
  have hpattern : placeholder a.1 = placeholder b.1 := congrArg Substitution.Entry.pattern heq
  exact List.inj_on_of_nodup_map data.nodup ha hb (placeholder_injective (hnamed a ha) (hnamed b hb) hpattern)

/-- All values have a text. -/
def HasTexts (entries : List (JsString × DataValue)) : Prop := ∀ entry ∈ entries, ∃ s, entry.2 = .text s

theorem expandMessage_eq_ok {entries : List (JsString × DataValue)} (h : HasTexts entries) (message : JsString) :
    expandMessage message entries = .ok (replaceEach (entries.map entryOf) message) := by
  induction entries generalizing message with
  | nil => rfl
  | cons entry entries ih =>
    obtain ⟨⟨s, hs⟩, hrest⟩ := List.forall_mem_cons.mp h
    obtain ⟨key, value⟩ := entry
    obtain rfl : value = .text s := hs
    rw [expandMessage, DataValue.toString]
    dsimp only
    rw [replaceAll, intercalate_split (placeholder_ne_nil key), ih hrest]
    rfl

theorem hasTexts_of_expandMessage_eq_ok {entries : List (JsString × DataValue)} {message expanded : JsString}
    (h : expandMessage message entries = .ok expanded) : HasTexts entries := by
  induction entries generalizing message with
  | nil => exact nofun
  | cons entry entries ih =>
    obtain ⟨key, value⟩ := entry
    rw [expandMessage] at h
    cases value with
    | text s => exact List.forall_mem_cons.mpr ⟨⟨s, rfl⟩, ih h⟩
    | null => cases h
    | undefined => cases h

theorem expandMessage_eq_expandAtOnce {data : Data} (hnamed : data.Named) {order : List (JsString × DataValue)}
    (hperm : order.Perm data.entries) (htexts : HasTexts order) (message : JsString)
    (horder : order.Pairwise fun a b => placeholder a.1 <:+: message →
      b.2.asText = placeholder b.1 ∨ Apart (placeholder b.1) a.2.asText) :
    expandMessage message order = .ok (expandAtOnce data message) := by
  have hmap := hperm.map entryOf
  rw [expandMessage_eq_ok htexts, expandAtOnce]
  refine congrArg Except.ok (replaceEach_eq_substitute (separate data hnamed) ?_ (fun entry => hmap.mem_iff) message ?_)
  · exact hmap.nodup_iff.mpr (nodup_entries data hnamed)
  · exact List.pairwise_map.mpr horder

/-- No value is met by the placeholder of another key, unless this one stands for itself. -/
def Independent (data : Data) : Prop :=
  ∀ a ∈ data.entries, ∀ b ∈ data.entries, a.1 ≠ b.1 →
    b.2.asText = placeholder b.1 ∨ Apart (placeholder b.1) a.2.asText

/-- In every order of its entries, the data expands every message at once. -/
def Expands (data : Data) : Prop :=
  ∀ message order, order.Perm data.entries → expandMessage message order = .ok (expandAtOnce data message)

theorem independent_iff (data : Data) (hnamed : data.Named) : Independent data ↔
    ∀ a ∈ data.entries.map entryOf, ∀ b ∈ data.entries.map entryOf, a ≠ b → After a b := by
  simp only [List.forall_mem_map]
  refine forall₂_congr fun a ha => forall₂_congr fun b hb => ?_
  have hne : a.1 ≠ b.1 ↔ entryOf a ≠ entryOf b := by
    refine not_congr ⟨fun hkey => ?_, fun heq => ?_⟩
    · exact congrArg entryOf (List.inj_on_of_nodup_map data.nodup ha hb hkey)
    · exact placeholder_injective (hnamed a ha) (hnamed b hb) (congrArg Substitution.Entry.pattern heq)
  rw [hne]
  rfl

theorem expands_iff (data : Data) (hnamed : data.Named) : Expands data ↔ HasTexts data.entries ∧ Independent data := by
  have hseparate := separate data hnamed
  have hnodup := nodup_entries data hnamed
  rw [independent_iff data hnamed, ← forall_replaceEach_iff hseparate hnodup]
  constructor
  · intro h
    have htexts := hasTexts_of_expandMessage_eq_ok (h [] data.entries (List.Perm.refl _))
    refine ⟨htexts, fun word order hperm => ?_⟩
    obtain ⟨order', rfl, hperm'⟩ :=
      (congrFun (congrFun (List.eq_map_comp_perm entryOf) order) data.entries).mpr hperm
    have hexpand := h word order' hperm'
    have htexts' : HasTexts order' := fun entry hentry => htexts entry (hperm'.mem_iff.mp hentry)
    rw [expandMessage_eq_ok htexts'] at hexpand
    exact Except.ok.inj hexpand
  · rintro ⟨htexts, h⟩ message order hperm
    have htexts' : HasTexts order := fun entry hentry => htexts entry (hperm.mem_iff.mp hentry)
    rw [expandMessage_eq_ok htexts', h message _ (hperm.map entryOf)]
    rfl

/-! ### Encoding -/

section Encoding

open Json (Value NumberFormat stringify parse)

variable {Num : Type} (format : NumberFormat Num)

/-- The properties of an object, of which a later one overrides an earlier one of the same name. -/
abbrev Properties (α : Type) := List (JsString × α)

def Properties.get {α : Type} (properties : Properties α) (key : JsString) : Option α :=
  (properties.reverse.find? (·.1 = key)).map Prod.snd

structure IssueLocation (Num : Type) where
  column : Num
  line : Num
  endColumn : Num
  endLine : Num
  message : Option JsString
  deriving DecidableEq

/-- An undefined property is not written. -/
def optional {α : Type} (key : String) (value : Option α) (toJson : α → Value Num) : Properties (Value Num) :=
  match value with
  | none => []
  | some value => [(units key, toJson value)]

/-- The properties are in the order of `toSecondaryLocation`. -/
def IssueLocation.toJson (location : IssueLocation Num) : Value Num :=
  .object (optional "message" location.message .string ++
    [(units "column", .number location.column), (units "line", .number location.line),
      (units "endColumn", .number location.endColumn), (units "endLine", .number location.endLine)])

/-- The object that is encoded. -/
def contents (message : JsString) (secondaryLocations : Option (List (IssueLocation Num))) (cost : Option Num) :
    Properties (Value Num) :=
  [(units "message", .string message)] ++
    optional "secondaryLocations" secondaryLocations (fun locations => .array (locations.map IssueLocation.toJson)) ++
    optional "cost" cost .number

def encodeContents (message : JsString) (secondaryLocations : Option (List (IssueLocation Num))) (cost : Option Num) :
    JsString :=
  stringify format (.object (contents message secondaryLocations cost))

structure ReportDescriptor where
  message : Option JsString
  messageId : Option JsString
  data : Option (Properties DataValue)

/-- The key of the encoded message in the data. -/
def sonarRuntimeData : JsString := units "sonarRuntimeData"

def toEncodedMessage (reportDescriptor : ReportDescriptor)
    (secondaryLocations : Option (List (IssueLocation Num))) (cost : Option Num) : Except JsError ReportDescriptor :=
  match reportDescriptor.message with
  | none => .error .error
  | some message =>
    let data := reportDescriptor.data.getD []
    match expandMessage message data with
    | .error e => .error e
    | .ok expanded =>
      .ok { message := none, messageId := some (units "sonarRuntime"),
            data := some ((sonarRuntimeData, .text (encodeContents format expanded secondaryLocations cost)) :: data) }

/-- What `generateMeta` adds to the messages of a rule. -/
def generateMeta (messages : Properties JsString) : Properties JsString :=
  messages ++ [(units "sonarRuntime", placeholder sonarRuntimeData)]

/-! ### Decoding -/

/-- The elements of a schema with their values, if they have `enum`. -/
abbrev Options := List (Option (List JsString))

inductive Schema
  | list (options : Options)
  | object (type : Option JsString) (items : Option Options)

def hasSonarRuntimeOption (schema : Option Schema) : Bool :=
  let some' (options : Options) :=
    options.any fun option => option.any fun enum => enum.contains (units "sonar-runtime")
  match schema with
  | some (.list options) => some' options
  | some (.object type (some items)) => type = some (units "array") && some' items
  | _ => false

/-- A message of the linter. -/
structure LintMessage (Num : Type) where
  ruleId : Option JsString
  line : Num
  column : Num
  endLine : Option Num
  endColumn : Option Num
  message : JsString

abbrev Issue (Num : Type) := Properties (Value Num)

/-- The quick fixes are left out. -/
def convertMessage (message : LintMessage Num) : Option (JsString × Issue Num) :=
  match message.ruleId with
  | none => none
  | some ruleId =>
    if units "sonarjs/" <+: ruleId then
      some (ruleId.drop 8, [(units "ruleId", .string (ruleId.drop 8)), (units "line", .number message.line),
        (units "column", .number message.column)] ++ optional "endLine" message.endLine .number ++
        optional "endColumn" message.endColumn .number ++ [(units "message", .string message.message),
        (units "secondaryLocations", .array [])])
    else none

/-- The properties that spreading a value gives. -/
def spread : Value Num → Properties (Value Num)
  | .object members => members
  | .array items => items.zipIdx.map fun (item, i) => (units (Nat.repr i), item)
  | .string s => s.zipIdx.map fun (unit, i) => (units (Nat.repr i), .string [unit])
  | .null | .bool _ | .number _ => []

def decodeSonarRuntime (schema : Option Schema) (issue : Issue Num) : Except JsError (Issue Num) :=
  if hasSonarRuntimeOption schema then
    match issue.get (units "message") with
    | some (.string message) =>
      match parse format message with
      | some encodedMessage => .ok (issue ++ spread encodedMessage)
      | none => .error .error
    | _ => .error .error
  else .ok issue

variable [Sub Num] [One Num] [Zero Num] [DecidableEq Num]

/-- One less, for a column that is a number. -/
def decrement (issue : Issue Num) (key : JsString) : Issue Num :=
  match issue.get key with
  | some (.number n) => issue ++ [(key, .number (n - 1))]
  | _ => issue

def normalizeLocation (issue : Issue Num) : Issue Num :=
  let issue := decrement issue (units "column")
  match issue.get (units "endColumn") with
  | some (.number n) => if n = 0 then issue else decrement issue (units "endColumn")
  | _ => issue

/-- The issues and the paths of the loop, for the schemas of the rules. -/
def transformMessages (rules : JsString → Option Schema) :
    List (LintMessage Num) → Except JsError (List (Issue Num) × List JsString)
  | [] => .ok ([], [])
  | message :: rest =>
    if message.ruleId = some (units "sonarjs/ucfg") then
      (transformMessages rules rest).map fun (issues, ucfgPaths) => (issues, message.message :: ucfgPaths)
    else
      match convertMessage message with
      | none => transformMessages rules rest
      | some (ruleId, issue) =>
        match decodeSonarRuntime format (rules ruleId) issue with
        | .error e => .error e
        | .ok issue =>
          (transformMessages rules rest).map fun (issues, ucfgPaths) => (normalizeLocation issue :: issues, ucfgPaths)

/-! ### Restoring -/

/-- The linter puts the data into the text of the message with the identifier. -/
def reported (interpolate : JsString → Properties JsString → JsString) (messages : Properties JsString)
    (descriptor : ReportDescriptor) : Option JsString :=
  match descriptor.messageId with
  | none => descriptor.message
  | some messageId =>
    (messages.get messageId).map fun template =>
      interpolate template ((descriptor.data.getD []).map fun (key, value) => (key, value.asText))

/-- A template that is one placeholder is replaced by the value of its name. -/
def Interpolates (interpolate : JsString → Properties JsString → JsString) : Prop :=
  ∀ key data value, IsName key → key ≠ [] → (∀ unit ∈ key, Json.isWhiteSpace unit = false) →
    Properties.get data key = some value → interpolate (placeholder key) data = value

/-- What is encoded is in the issue, whatever the message, the locations and the cost are. -/
def Restores (interpolate : JsString → Properties JsString → JsString) (messages : Properties JsString)
    (rules : JsString → Option Schema) (lint : LintMessage Num) (data : Data) : Prop :=
  ∀ (message : JsString) (secondaryLocations : Option (List (IssueLocation Num))) (cost : Option Num),
    ∃ expanded encoded text issue, expandMessage message data.entries = .ok expanded ∧
      toEncodedMessage format ⟨some message, none, some data.entries⟩ secondaryLocations cost = .ok encoded ∧
      reported interpolate (generateMeta messages) encoded = some text ∧
      transformMessages format rules [{ lint with message := text }] = .ok ([issue], []) ∧
      issue.get (units "message") = some (.string expanded) ∧
      issue.get (units "secondaryLocations") =
        some (.array ((secondaryLocations.getD []).map IssueLocation.toJson)) ∧
      issue.get (units "cost") = cost.map .number

omit [Sub Num] [One Num] [Zero Num] [DecidableEq Num] in
theorem get_append {α : Type} (first second : Properties α) (key : JsString) :
    Properties.get (first ++ second) key = (Properties.get second key).or (Properties.get first key) := by
  simp only [Properties.get, List.reverse_append, List.find?_append]
  cases second.reverse.find? (·.1 = key) <;> rfl

theorem get_eq_none {α : Type} {properties : Properties α} {key : JsString} (h : key ∉ properties.map Prod.fst) :
    properties.get key = none := by
  simp only [Properties.get, Option.map_eq_none_iff, List.find?_eq_none, List.mem_reverse, decide_eq_true_eq]
  rintro property hmem rfl
  exact h (List.mem_map_of_mem hmem)

omit [Zero Num] [DecidableEq Num] in
theorem get_decrement {issue : Issue Num} {key other : JsString} (h : other ≠ key) :
    (decrement issue key).get other = issue.get other := by
  unfold decrement
  split
  · rw [get_append, get_eq_none (by simpa using h), Option.none_or]
  · rfl

theorem get_normalizeLocation {issue : Issue Num} {key : JsString} (hcolumn : key ≠ units "column")
    (hendColumn : key ≠ units "endColumn") : (normalizeLocation issue).get key = issue.get key := by
  unfold normalizeLocation
  dsimp only
  split
  · split_ifs
    · exact get_decrement hcolumn
    · rw [get_decrement hendColumn, get_decrement hcolumn]
  · exact get_decrement hcolumn

omit [Sub Num] [One Num] [Zero Num] [DecidableEq Num] in
theorem get_optional_of_ne {α : Type} {key : String} {other : JsString} (h : other ≠ units key) (value : Option α)
    (toJson : α → Value Num) : (optional key value toJson).get other = none := by
  cases value with
  | none => rfl
  | some value => exact get_eq_none (by simpa [optional] using h)

omit [Sub Num] [One Num] [Zero Num] [DecidableEq Num] in
theorem get_optional {α : Type} (key : String) (value : Option α) (toJson : α → Value Num) :
    (optional key value toJson).get (units key) = value.map toJson := by
  cases value with
  | none => rfl
  | some value => simp [optional, Properties.get]

omit [Sub Num] [One Num] [Zero Num] [DecidableEq Num] in
theorem get_cons {α : Type} (key : JsString) (value : α) (rest : Properties α) (other : JsString) :
    Properties.get ((key, value) :: rest) other =
      (Properties.get rest other).or (if key = other then some value else none) := by
  rw [← List.singleton_append, get_append]
  by_cases heq : key = other <;> simp [Properties.get, heq]

omit [Sub Num] [One Num] [Zero Num] [DecidableEq Num] in
theorem convertMessage_eq_some (message : LintMessage Num) {ruleId : JsString}
    (h : message.ruleId = some (units "sonarjs/" ++ ruleId)) : ∃ issue, convertMessage message = some (ruleId, issue) ∧
      issue.get (units "message") = some (.string message.message) ∧
      issue.get (units "secondaryLocations") = some (.array []) ∧ issue.get (units "cost") = none := by
  have hdrop : (units "sonarjs/" ++ ruleId).drop 8 = ruleId := by
    show (units "sonarjs/" ++ ruleId).drop (units "sonarjs/").length = ruleId
    exact List.drop_left
  rw [convertMessage, h]
  dsimp only
  rw [if_pos (List.prefix_append _ _), hdrop]
  refine ⟨_, rfl, ?_, ?_, ?_⟩
  · rw [get_append]
    rfl
  · rw [get_append]
    rfl
  · rw [get_append, get_append, get_append, get_optional_of_ne (by decide), get_optional_of_ne (by decide)]
    rfl

omit [Sub Num] [One Num] [Zero Num] [DecidableEq Num] in
/-- The contents override the properties of the issue. -/
theorem get_contents {issue : Issue Num} (hlocations : issue.get (units "secondaryLocations") = some (.array []))
    (hcost : issue.get (units "cost") = none) (message : JsString)
    (secondaryLocations : Option (List (IssueLocation Num))) (cost : Option Num) :
    Properties.get (issue ++ contents message secondaryLocations cost) (units "message") = some (.string message) ∧
      Properties.get (issue ++ contents message secondaryLocations cost) (units "secondaryLocations") =
        some (.array ((secondaryLocations.getD []).map IssueLocation.toJson)) ∧
      Properties.get (issue ++ contents message secondaryLocations cost) (units "cost") = cost.map .number := by
  refine ⟨?_, ?_, ?_⟩
  · rw [get_append, contents, get_append, get_append, get_optional_of_ne (by decide), get_optional_of_ne (by decide)]
    rfl
  · rw [get_append, contents, get_append, get_append, get_optional_of_ne (by decide), get_optional, hlocations]
    cases secondaryLocations <;> rfl
  · rw [get_append, contents, get_append, get_append, get_optional, get_optional_of_ne (by decide), hcost]
    cases cost <;> rfl

variable (interpolate : JsString → Properties JsString → JsString) (messages : Properties JsString)
  (rules : JsString → Option Schema) (lint : LintMessage Num)

omit [Sub Num] [One Num] [Zero Num] [DecidableEq Num] in
/-- The text that the linter reports is the value of `sonarRuntimeData`. -/
theorem reported_eq_some (hinterpolate : Interpolates interpolate) {entries : Properties DataValue}
    (value : DataValue) (h : Properties.get entries sonarRuntimeData = some value) :
    reported interpolate (generateMeta messages) ⟨none, some (units "sonarRuntime"), some entries⟩ =
      some value.asText := by
  have htemplate : (generateMeta messages).get (units "sonarRuntime") = some (placeholder sonarRuntimeData) := by
    rw [generateMeta, get_append]
    rfl
  have hget : Properties.get (entries.map fun (key, value) => (key, value.asText)) sonarRuntimeData =
      some value.asText := by
    simp only [Properties.get, ← List.map_reverse, List.find?_map, Option.map_map] at h ⊢
    obtain ⟨entry, hentry, rfl⟩ := Option.map_eq_some_iff.mp h
    exact Option.map_eq_some_iff.mpr ⟨entry, hentry, rfl⟩
  have hunits : ∀ unit ∈ sonarRuntimeData, (unit ≠ 123 ∧ unit ≠ 125) ∧ Json.isWhiteSpace unit = false := by
    decide
  simp only [reported, htemplate, Option.map_some, Option.getD_some]
  rw [hinterpolate _ _ _ (fun unit hunit => (hunits unit hunit).1) (by decide) (fun unit hunit => (hunits unit hunit).2)
    hget]

/-- An encoded message is decoded, when its rule has the parameter. -/
theorem transformMessages_encoded {ruleId : JsString} (hrule : lint.ruleId = some (units "sonarjs/" ++ ruleId))
    (hucfg : ruleId ≠ units "ucfg") (hoption : hasSonarRuntimeOption (rules ruleId) = true) (message : JsString)
    (secondaryLocations : Option (List (IssueLocation Num))) (cost : Option Num) :
    ∃ issue, transformMessages format rules
        [{ lint with message := encodeContents format message secondaryLocations cost }] = .ok ([issue], []) ∧
      issue.get (units "message") = some (.string message) ∧
      issue.get (units "secondaryLocations") =
        some (.array ((secondaryLocations.getD []).map IssueLocation.toJson)) ∧
      issue.get (units "cost") = cost.map .number := by
  obtain ⟨issue, hconvert, hmessage, hlocations, hcost⟩ := convertMessage_eq_some
    { lint with message := encodeContents format message secondaryLocations cost } hrule
  have hnot : lint.ruleId ≠ some (units "sonarjs/ucfg") := by
    rw [hrule]
    intro heq
    have heq : units "sonarjs/" ++ ruleId = units "sonarjs/" ++ units "ucfg" := Option.some.inj heq
    exact hucfg (List.append_cancel_left heq)
  have hdecode : decodeSonarRuntime format (rules ruleId) issue =
      .ok (issue ++ contents message secondaryLocations cost) := by
    rw [decodeSonarRuntime, if_pos hoption, hmessage]
    dsimp only
    rw [encodeContents, Json.parse_stringify]
    rfl
  obtain ⟨hmessage', hlocations', hcost'⟩ := get_contents hlocations hcost message secondaryLocations cost
  refine ⟨normalizeLocation (issue ++ contents message secondaryLocations cost), ?_, ?_, ?_, ?_⟩
  · rw [transformMessages, if_neg hnot, hconvert]
    dsimp only
    rw [hdecode]
    rfl
  · rw [get_normalizeLocation (by decide) (by decide), hmessage']
  · rw [get_normalizeLocation (by decide) (by decide), hlocations']
  · rw [get_normalizeLocation (by decide) (by decide), hcost']

omit [Sub Num] [One Num] [Zero Num] [DecidableEq Num] in
theorem toEncodedMessage_eq_ok {entries : Properties DataValue} (h : HasTexts entries) (message : JsString)
    (secondaryLocations : Option (List (IssueLocation Num))) (cost : Option Num) :
    toEncodedMessage format ⟨some message, none, some entries⟩ secondaryLocations cost =
      .ok ⟨none, some (units "sonarRuntime"), some ((sonarRuntimeData, .text (encodeContents format
        (replaceEach (entries.map entryOf) message) secondaryLocations cost)) :: entries)⟩ := by
  simp only [toEncodedMessage, Option.getD_some, expandMessage_eq_ok h]

theorem restores_iff (hinterpolate : Interpolates interpolate) {ruleId : JsString}
    (hrule : lint.ruleId = some (units "sonarjs/" ++ ruleId)) (hucfg : ruleId ≠ units "ucfg")
    (hoption : hasSonarRuntimeOption (rules ruleId) = true) (data : Data) :
    Restores format interpolate messages rules lint data ↔
      HasTexts data.entries ∧ sonarRuntimeData ∉ data.entries.map Prod.fst := by
  constructor
  · intro h
    obtain ⟨expanded, -, -, -, hexpanded, -⟩ := h [] none none
    have htexts := hasTexts_of_expandMessage_eq_ok hexpanded
    refine ⟨htexts, fun hmem => ?_⟩
    -- the value of the data hides every encoded message
    obtain ⟨value, hvalue⟩ : ∃ value, Properties.get data.entries sonarRuntimeData = some value := by
      obtain ⟨entry, hentry, hkey⟩ := List.mem_map.mp hmem
      rw [← Option.ne_none_iff_exists']
      simp only [Properties.get, ne_eq, Option.map_eq_none_iff, List.find?_eq_none, not_forall]
      exact ⟨entry, List.mem_reverse.mpr hentry, by simpa using hkey⟩
    have hall : ∀ message encoded,
        toEncodedMessage format ⟨some message, none, some data.entries⟩ none none = .ok encoded →
        reported interpolate (generateMeta messages) encoded = some value.asText := by
      intro message encoded hencoded
      rw [toEncodedMessage_eq_ok format htexts] at hencoded
      obtain rfl := Except.ok.inj hencoded
      refine reported_eq_some interpolate messages hinterpolate value ?_
      rw [get_cons, hvalue, Option.some_or]
    have hissue : ∀ message : JsString, message.length ≤ 1 → ∃ issue,
        transformMessages format rules [{ lint with message := value.asText }] = .ok ([issue], []) ∧
        issue.get (units "message") = some (.string message) := by
      intro message hlength
      obtain ⟨expanded, encoded, text, issue, hexpanded, hencoded, hreported, htransform, hmessage, -⟩ :=
        h message none none
      rw [hall message encoded hencoded] at hreported
      obtain rfl := Option.some.inj hreported
      rw [expandMessage_eq_ok htexts, replaceEach_eq_self] at hexpanded
      · obtain rfl := Except.ok.inj hexpanded
        exact ⟨issue, htransform, hmessage⟩
      · intro entry hentry hoccurs
        obtain ⟨pair, -, rfl⟩ := List.mem_map.mp hentry
        have hle := hoccurs.length_le
        rw [entryOf, length_placeholder] at hle
        omega
    obtain ⟨issue, htransform, hmessage⟩ := hissue [] (Nat.zero_le _)
    obtain ⟨issue', htransform', hmessage'⟩ := hissue [97] (Nat.le_refl _)
    rw [htransform] at htransform'
    obtain rfl : issue = issue' := by simpa using htransform'
    rw [hmessage] at hmessage'
    cases hmessage'
  · rintro ⟨htexts, hnot⟩ message secondaryLocations cost
    obtain ⟨issue, htransform, hmessage, hlocations, hcost⟩ := transformMessages_encoded format rules lint hrule hucfg
      hoption (replaceEach (data.entries.map entryOf) message) secondaryLocations cost
    refine ⟨_, _, _, issue, expandMessage_eq_ok htexts message,
      toEncodedMessage_eq_ok format htexts message secondaryLocations cost, ?_, htransform, hmessage, hlocations, hcost⟩
    refine reported_eq_some interpolate messages hinterpolate (.text _) ?_
    rw [get_cons, get_eq_none hnot, Option.none_or, if_pos rfl]
    rfl

/-- For data whose keys are names, every message is expanded at once in every order exactly when all values have a text
and no value is met by another placeholder; for one message, the values that it has before the other placeholder count.
It is restored exactly when all values have a text and none is called `sonarRuntimeData`. -/
theorem expands_and_restores_iff (hinterpolate : Interpolates interpolate) {ruleId : JsString}
    (hrule : lint.ruleId = some (units "sonarjs/" ++ ruleId)) (hucfg : ruleId ≠ units "ucfg")
    (hoption : hasSonarRuntimeOption (rules ruleId) = true) (data : Data) :
    (data.Named → (Expands data ↔ HasTexts data.entries ∧ Independent data) ∧
      ∀ message order, order.Perm data.entries → HasTexts order →
        (order.Pairwise fun a b => placeholder a.1 <:+: message →
          b.2.asText = placeholder b.1 ∨ Apart (placeholder b.1) a.2.asText) →
        expandMessage message order = .ok (expandAtOnce data message)) ∧
    (Restores format interpolate messages rules lint data ↔
      HasTexts data.entries ∧ sonarRuntimeData ∉ data.entries.map Prod.fst) :=
  ⟨fun hnamed => ⟨expands_iff data hnamed, fun message _ hperm htexts horder =>
      expandMessage_eq_expandAtOnce hnamed hperm htexts message horder⟩,
    restores_iff format interpolate messages rules lint hinterpolate hrule hucfg hoption data⟩

end Encoding

/-! ### A value without and with a placeholder -/

/-- A linter that knows templates of one placeholder. -/
def interpolateWhole (text : JsString) (data : Properties JsString) : JsString :=
  match data.reverse.find? (placeholder ·.1 = text) with
  | some entry => entry.2
  | none => text

theorem interpolates_whole : Interpolates interpolateWhole := by
  intro key data value _ _ _ hget
  obtain ⟨entry, hentry, rfl⟩ := Option.map_eq_some_iff.mp hget
  have hfind : data.reverse.find? (placeholder ·.1 = placeholder key) = data.reverse.find? (·.1 = key) := by
    refine congrArg (List.find? · data.reverse) (funext fun entry => decide_eq_decide.mpr ?_)
    exact ⟨fun h => List.append_cancel_left (List.append_cancel_right h), congrArg placeholder⟩
  rw [interpolateWhole, hfind, hentry]

/-- `{ a: 'x' }` -/
def plain : Data where
  entries := [([97], .text [120])]
  nodup := by decide

theorem plain_restores : Restores Json.decimal interpolateWhole []
    (fun _ => some (.list [some [units "sonar-runtime"]]))
    ⟨some (units "sonarjs/S1"), 1, 1, none, none, []⟩ plain := by
  have hiff := expands_and_restores_iff Json.decimal interpolateWhole []
    (fun _ => some (.list [some [units "sonar-runtime"]])) ⟨some (units "sonarjs/S1"), 1, 1, none, none, []⟩
    interpolates_whole (show some (units "sonarjs/S1") = some (units "sonarjs/" ++ units "S1") from rfl)
    (by decide) (by decide) plain
  exact hiff.2.mpr ⟨List.forall_mem_singleton.mpr ⟨_, rfl⟩, by decide⟩

/-- `{ a: '{{b}}', b: 'x' }` -/
def nested : Data where
  entries := [([97], .text (placeholder [98])), ([98], .text [120])]
  nodup := by decide

theorem nested_not_expands : ¬ ∀ data : Data, data.Named → Expands data := by
  intro h
  have hnamed : nested.Named := by
    intro entry hentry
    simp only [nested, List.mem_cons, List.not_mem_nil, or_false] at hentry
    rcases hentry with rfl | rfl
    · exact List.forall_mem_singleton.mpr (by decide)
    · exact List.forall_mem_singleton.mpr (by decide)
  obtain ⟨-, hindependent⟩ := (expands_iff nested hnamed).mp (h nested hnamed)
  have hmem : ([98], .text [120]) ∈ nested.entries := List.mem_cons_of_mem _ List.mem_cons_self
  rcases hindependent _ List.mem_cons_self _ hmem (by decide) with hvalue | hapart
  · exact absurd hvalue (by decide)
  · rcases hapart [] [] [] [] rfl with hle | hle
    · exact absurd hle (by decide)
    · exact absurd hle (by decide)

end SonarJavascript.Linter.EncodedMessage
