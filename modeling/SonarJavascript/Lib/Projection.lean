import Mathlib.Data.List.Nodup

/-!
# Records of keyed entries

The children of a tree node, as one list of entries under their keys: a property that holds one child has
an entry, and a property that holds an array has an entry for each element, a `hole` where the element is
missing. A `Slot` is a property as one side of a transport declares it, and `select` reads it.

A side copies a record by reading all slots that it declares (`project`), or all scalars (`copy`). What
has been copied reads back as it was, in the slots and keys that the side declares, so that a reader at
the end of a chain of such copies sees the record at its start.
-/

namespace SonarJavascript

inductive Entry (α : Type)
  | node (key : String) (a : α)
  | hole (key : String)
  deriving DecidableEq, Repr

namespace Entry

variable {α β γ : Type}

def key : Entry α → String
  | node key _ => key
  | hole key => key

def isNode : Entry α → Bool
  | node _ _ => true
  | hole _ => false

def map (f : α → β) : Entry α → Entry β
  | node key a => node key (f a)
  | hole key => hole key

@[simp] theorem map_node (f : α → β) (k : String) (a : α) : (node k a).map f = node k (f a) := rfl

@[simp] theorem map_hole (f : α → β) (k : String) : (hole k : Entry α).map f = hole k := rfl

@[simp] theorem key_map (f : α → β) (e : Entry α) : (e.map f).key = e.key := by
  cases e <;> rfl

@[simp] theorem isNode_map (f : α → β) (e : Entry α) : (e.map f).isNode = e.isNode := by
  cases e <;> rfl

@[simp] theorem map_map (f : α → β) (g : β → γ) (e : Entry α) :
    (e.map f).map g = e.map fun a => g (f a) := by
  cases e <;> rfl

end Entry

/-- A property that holds one child, an array of children, or an array with an empty box for every
missing element. -/
inductive Arity
  | one
  | many
  | elements
  deriving DecidableEq, Repr

structure Slot where
  arity : Arity
  key : String
  deriving DecidableEq, Repr

def one (key : String) : Slot := ⟨.one, key⟩

def many (key : String) : Slot := ⟨.many, key⟩

def elements (key : String) : Slot := ⟨.elements, key⟩

namespace Slot

variable {α β : Type}

def admits (slot : Slot) (e : Entry α) : Bool :=
  e.key == slot.key && (slot.arity != .one || e.isNode)

/-- Of the entries that a slot admits, the first one when it holds one child. -/
def cut (slot : Slot) (es : List (Entry α)) : List (Entry α) :=
  match slot.arity with
  | .one => es.take 1
  | _ => es

def select (slot : Slot) (es : List (Entry α)) : List (Entry α) :=
  slot.cut (es.filter slot.admits)

variable {slot : Slot} {es : List (Entry α)} {e : Entry α}

theorem cut_subset : slot.cut es ⊆ es := by
  unfold cut
  split
  · exact List.take_subset 1 es
  · exact List.Subset.refl es

theorem cut_cut : slot.cut (slot.cut es) = slot.cut es := by
  unfold cut
  split
  · exact List.take_take.trans (by rw [Nat.min_self])
  · rename_i hmany
    split
    · rename_i hone
      exact absurd hone hmany
    · rfl

theorem cut_map (f : Entry α → Entry β) : slot.cut (es.map f) = (slot.cut es).map f := by
  unfold cut
  split
  · exact List.map_take.symm
  · rfl

theorem of_mem_select (h : e ∈ slot.select es) : e ∈ es ∧ slot.admits e = true :=
  List.mem_filter.mp (cut_subset h)

@[simp] theorem select_nil (slot : Slot) : slot.select ([] : List (Entry α)) = [] :=
  List.eq_nil_of_subset_nil cut_subset

theorem key_of_mem_select (h : e ∈ slot.select es) : e.key = slot.key := by
  have hadmits := (of_mem_select h).2
  simp only [admits, Bool.and_eq_true, beq_iff_eq] at hadmits
  exact hadmits.1

@[simp] theorem admits_map (f : α → β) (e : Entry α) : slot.admits (e.map f) = slot.admits e := by
  simp [admits]

theorem select_map (f : α → β) (es : List (Entry α)) :
    slot.select (es.map (Entry.map f)) = (slot.select es).map (Entry.map f) := by
  unfold select
  rw [List.filter_map, cut_map]
  congr 3
  funext e
  exact admits_map f e

/-! ### What has been copied reads back -/

def project (slots : List Slot) (es : List (Entry α)) : List (Entry α) :=
  slots.flatMap (·.select es)

theorem project_map (f : α → β) (slots : List Slot) (es : List (Entry α)) :
    project slots (es.map (Entry.map f)) = (project slots es).map (Entry.map f) := by
  simp only [project, select_map, List.map_flatMap]

theorem filter_admits_select (slot : Slot) (es : List (Entry α)) :
    (slot.select es).filter slot.admits = slot.select es :=
  List.filter_eq_self.mpr fun _ he => (of_mem_select he).2

theorem filter_admits_select_of_ne {slot' : Slot} (h : slot'.key ≠ slot.key) :
    (slot'.select es).filter slot.admits = [] := by
  refine List.filter_eq_nil_iff.mpr fun e he => ?_
  have hkey : e.key ≠ slot.key := by
    rw [key_of_mem_select he]
    exact h
  simp [admits, hkey]

theorem filter_admits_project {slots : List Slot} (hkeys : (slots.map Slot.key).Nodup)
    (hslot : slot ∈ slots) (es : List (Entry α)) :
    (project slots es).filter slot.admits = slot.select es := by
  induction slots with
  | nil => cases hslot
  | cons first rest ih =>
    rw [List.map_cons, List.nodup_cons] at hkeys
    show ((first.select es) ++ project rest es).filter slot.admits = slot.select es
    rw [List.filter_append]
    rcases List.mem_cons.mp hslot with hfirst | hrest
    · subst hfirst
      have hothers : (project rest es).filter slot.admits = [] := by
        refine List.filter_eq_nil_iff.mpr fun e he => ?_
        obtain ⟨other, hother, hsel⟩ := List.mem_flatMap.mp he
        have hne : other.key ≠ slot.key := fun heq =>
          hkeys.1 (heq ▸ List.mem_map_of_mem hother)
        exact List.filter_eq_nil_iff.mp (filter_admits_select_of_ne hne) e hsel
      rw [hothers, List.append_nil, filter_admits_select]
    · have hne : first.key ≠ slot.key := fun heq =>
        hkeys.1 (heq ▸ List.mem_map_of_mem hrest)
      rw [filter_admits_select_of_ne hne, List.nil_append, ih hkeys.2 hrest]

theorem select_project {slots : List Slot} (hkeys : (slots.map Slot.key).Nodup)
    (hslot : slot ∈ slots) (es : List (Entry α)) :
    slot.select (project slots es) = slot.select es := by
  show slot.cut ((project slots es).filter slot.admits) = slot.select es
  rw [filter_admits_project hkeys hslot]
  exact cut_cut

end Slot

/-! ### Scalars -/

section Copy

variable {V : Type}

/-- The keys that have a value, with it. -/
def copy (keys : List String) (value : String → Option V) : List (String × V) :=
  keys.filterMap fun key => (value key).map fun v => (key, v)

theorem lookup_copy_of_notMem {keys : List String} {key : String} (hkey : key ∉ keys)
    (value : String → Option V) : (copy keys value).lookup key = none := by
  refine List.lookup_eq_none_iff.mpr fun p hp => ?_
  obtain ⟨other, hother, hpair⟩ := List.mem_filterMap.mp hp
  obtain ⟨v, -, rfl⟩ := Option.map_eq_some_iff.mp hpair
  have hne : key ≠ other := fun heq => hkey (heq ▸ hother)
  simpa using hne

theorem lookup_copy {keys : List String} {key : String} (hkey : key ∈ keys)
    (value : String → Option V) : (copy keys value).lookup key = value key := by
  induction keys with
  | nil => cases hkey
  | cons first rest ih =>
    by_cases hfirst : key = first
    · subst hfirst
      cases hvalue : value key with
      | none =>
        by_cases hrest : key ∈ rest
        · simpa [copy, hvalue] using ih hrest
        · simpa [copy, hvalue] using lookup_copy_of_notMem hrest value
      | some v => simp [copy, hvalue]
    · have hrest : key ∈ rest := (List.mem_cons.mp hkey).resolve_left hfirst
      cases hvalue : value first with
      | none => simpa [copy, hvalue] using ih hrest
      | some v => simpa [copy, hvalue, List.lookup_cons, beq_false_of_ne hfirst] using ih hrest

end Copy

end SonarJavascript
