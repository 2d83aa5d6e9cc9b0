import SonarJavascript.Helpers.UniqueWrite

/-!
# Properties of object literals

`getProperty` searches a literal from its end, and goes on in the literals that are spread into it. Unless it comes
back to a literal, it finds the last property with the key; a spread that it cannot resolve counts only when there is
no such property.
-/

namespace SonarJavascript.Helpers.ObjectProperty

open Unfolding

/-! ### Programs -/

/-- What is read off a node. -/
inductive Syntax (Node : Type)
  | ObjectExpression (properties : List Node)
  | Property (key : Node) (computed : Bool)
  | SpreadElement (argument : Node)
  | Identifier (name : String)
  | StringLiteral (value : String)
  | NumberLiteral (text : String)
  | other (type : String)

/-- The chain of a node has its ancestors up to the program. -/
structure Program (Node : Type) where
  syntaxOf : Node → Syntax Node
  getScope : Node → Scope Node
  ancestorsChain : Node → List Node

variable {Node : Type} (program : Program Node)

/-- What `getValueOfExpression` reads. -/
def Program.base : Helpers.Program Node where
  syntaxOf node :=
    match program.syntaxOf node with
    | .Identifier name => .Identifier name
    | .ObjectExpression _ => .other "ObjectExpression"
    | .Property _ _ => .other "Property"
    | .SpreadElement _ => .other "SpreadElement"
    | .StringLiteral _ | .NumberLiteral _ => .other "Literal"
    | .other type => .other type
  getScope := program.getScope

/-- A property, null or undefined. -/
inductive Result (Node : Type)
  | property (node : Node)
  | null
  | undefined
  deriving DecidableEq, Repr

/-! ### The search -/

/-- Whether the key of the property is computed is not looked at. -/
def isProperty (key : String) (node : Node) : Bool :=
  match program.syntaxOf node with
  | .Property propertyKey _ =>
    match program.syntaxOf propertyKey with
    | .Identifier name => name = key
    | .StringLiteral value => value = key
    | _ => false
  | _ => false

variable [DecidableEq Node]

def findFirstMatchingAncestor (node : Node) (predicate : Node → Bool) : Option Node :=
  (program.ancestorsChain node).find? predicate

/-- The function is called for the literal that is spread. -/
def getPropertyFromSpreadElement (getProperty : Option Node → Option (Result Node)) (argument : Node) :
    Option (Result Node) :=
  match getValueOfExpression program.base "ObjectExpression" false 1 (some argument) with
  | none => none
  | some none => some .undefined
  | some (some props) =>
    let recursiveDefinition := findFirstMatchingAncestor program argument (· = props)
    if recursiveDefinition.isSome then some .undefined else getProperty (some props)

/-- The loop, with the properties in the order in which they are looked at. -/
def searchFrom (fromSpread : Node → Option (Result Node)) (key : String) : List Node → Bool → Option (Result Node)
  | [], unresolvedSpreadElement => some (if unresolvedSpreadElement then .undefined else .null)
  | property :: rest, unresolvedSpreadElement =>
    if isProperty program key property then some (.property property)
    else
      match program.syntaxOf property with
      | .SpreadElement argument =>
        match fromSpread argument with
        | none => none
        | some .undefined => searchFrom fromSpread key rest true
        | some .null => searchFrom fromSpread key rest unresolvedSpreadElement
        | some (.property prop) => some (.property prop)
      | _ => searchFrom fromSpread key rest unresolvedSpreadElement

/-- There is no result when the fuel does not suffice. -/
def getProperty (key : String) : ℕ → Option Node → Option (Result Node)
  | 0, _ => none
  | _ + 1, none => some .null
  | fuel + 1, some expr =>
    match program.syntaxOf expr with
    | .ObjectExpression properties =>
      searchFrom program (getPropertyFromSpreadElement program (getProperty key fuel)) key properties.reverse false
    | _ => some .null

/-! ### The last property -/

/-- The literal that is spread, if it is known and does not contain the spread. -/
def spreadTarget (argument : Node) : Option Node :=
  (getValueOfExpression program.base "ObjectExpression" false 1 (some argument)).join.filter fun target =>
    target ∉ program.ancestorsChain argument

def itemsOf (literal : Node) : List Node :=
  match program.syntaxOf literal with
  | .ObjectExpression properties => properties
  | _ => []

/-- The literal that the item spreads. -/
def targetOf (item : Node) : Option Node :=
  match program.syntaxOf item with
  | .SpreadElement argument => spreadTarget program argument
  | _ => none

/-- The item spreads something unknown. -/
def IsHole (item : Node) : Prop :=
  ∃ argument, program.syntaxOf item = .SpreadElement argument ∧ spreadTarget program argument = none

/-- The name of a property, if it is known before the program runs. -/
def nameOf (item : Node) : Option String :=
  match program.syntaxOf item with
  | .Property propertyKey computed =>
    match program.syntaxOf propertyKey with
    | .Identifier name => if computed then none else some name
    | .StringLiteral value => some value
    | .NumberLiteral text => some text
    | _ => none
  | _ => none

/-- The item is a property with the key, or spreads one. -/
inductive Provides (key : String) : Node → Prop
  | property {item : Node} : nameOf program item = some key → Provides key item
  | spread {item target inner : Node} : targetOf program item = some target → inner ∈ itemsOf program target →
      Provides key inner → Provides key item

/-- What the item spreads is not all known. -/
inductive HasHole : Node → Prop
  | hole {item : Node} : IsHole program item → HasHole item
  | spread {item target inner : Node} : targetOf program item = some target → inner ∈ itemsOf program target →
      HasHole inner → HasHole item

/-- The property that the item gives for the key: that of the last item that provides one. -/
inductive Gives (key : String) : Node → Node → Prop
  | property {item : Node} : nameOf program item = some key → Gives key item item
  | spread {item target inner property : Node} {before after : List Node} : targetOf program item = some target →
      itemsOf program target = before ++ inner :: after → Gives key inner property →
      (∀ later ∈ after, ¬ Provides program key later) → Gives key item property

/-- The last property for the key among the items. -/
def LastOf (key : String) (items : List Node) (property : Node) : Prop :=
  ∃ before item after, items = before ++ item :: after ∧ Gives program key item property ∧
    ∀ later ∈ after, ¬ Provides program key later

/-- The search for the key goes on in the literal. -/
def Visits (key : String) (literal target : Node) : Prop :=
  ∃ before item after, itemsOf program literal = before ++ item :: after ∧ targetOf program item = some target ∧
    ∀ later ∈ after, ¬ Provides program key later

/-- The second literal is spread into the first one. -/
def Spreads (literal target : Node) : Prop :=
  ∃ item ∈ itemsOf program literal, targetOf program item = some target

/-- The name of a property is not computed when the program runs, and is no number that is the key. -/
def PlainKey (key : String) (item : Node) : Prop :=
  ∀ propertyKey computed, program.syntaxOf item = .Property propertyKey computed →
    nameOf program item ≠ none ∧ ∀ text, program.syntaxOf propertyKey = .NumberLiteral text → text ≠ key

/-! ### The spread -/

omit [DecidableEq Node] in
theorem getValueOfExpression_once (base : Helpers.Program Node) (type : String) (node : Node) :
    ∃ value, getValueOfExpression base type false 1 (some node) = some value := by
  rw [getValueOfExpression]
  by_cases htype : base.type node = type
  · exact ⟨_, if_pos htype⟩
  rw [if_neg htype]
  cases base.syntaxOf node with
  | Identifier name =>
    dsimp only
    cases getUniqueWriteUsage base name node with
    | none => exact ⟨_, rfl⟩
    | some usage =>
      by_cases husage : base.type usage = type
      · exact ⟨_, if_pos husage⟩
      · exact ⟨none, by simp [husage]⟩
  | ArrayExpression | other => exact ⟨_, rfl⟩

theorem getPropertyFromSpreadElement_eq (recurse : Option Node → Option (Result Node)) (argument : Node) :
    getPropertyFromSpreadElement program recurse argument =
      match spreadTarget program argument with
      | none => some .undefined
      | some target => recurse (some target) := by
  obtain ⟨value, hvalue⟩ := getValueOfExpression_once program.base "ObjectExpression" argument
  rw [getPropertyFromSpreadElement, spreadTarget, hvalue]
  cases value with
  | none => rfl
  | some props =>
    have hfound : (findFirstMatchingAncestor program argument (· = props)).isSome ↔
        props ∈ program.ancestorsChain argument := by
      simp [findFirstMatchingAncestor]
    by_cases hmem : props ∈ program.ancestorsChain argument
    · simp [hfound, hmem, Option.filter_some]
    · simp [hfound, hmem, Option.filter_some]

omit [DecidableEq Node] in
theorem isProperty_iff {key : String} {item : Node} (h : PlainKey program key item) :
    isProperty program key item = true ↔ nameOf program item = some key := by
  unfold isProperty nameOf
  cases hitem : program.syntaxOf item with
  | Property propertyKey computed =>
    obtain ⟨hname, hnumber⟩ := h propertyKey computed hitem
    rw [nameOf, hitem] at hname
    dsimp only at hname ⊢
    cases hkey : program.syntaxOf propertyKey with
    | Identifier name =>
      cases computed with
      | true => simp [hkey] at hname
      | false => simp
    | StringLiteral value => simp
    | NumberLiteral text => simp [hnumber text hkey]
    | ObjectExpression | Property | SpreadElement | other => simp
  | ObjectExpression | SpreadElement | Identifier | StringLiteral | NumberLiteral | other => simp

/-! ### The loop -/

/-- What an item gives the loop. -/
def resultOf (fromSpread : Node → Option (Result Node)) (key : String) (item : Node) : Option (Result Node) :=
  if isProperty program key item then some (.property item)
  else
    match program.syntaxOf item with
    | .SpreadElement argument => fromSpread argument
    | _ => some .null

omit [DecidableEq Node] in
theorem searchFrom_cons (fromSpread : Node → Option (Result Node)) (key : String) (item : Node) (rest : List Node)
    (unresolved : Bool) : searchFrom program fromSpread key (item :: rest) unresolved =
      match resultOf program fromSpread key item with
      | none => none
      | some .undefined => searchFrom program fromSpread key rest true
      | some .null => searchFrom program fromSpread key rest unresolved
      | some (.property property) => some (.property property) := by
  rw [searchFrom, resultOf]
  by_cases hproperty : isProperty program key item = true
  · rw [if_pos hproperty, if_pos hproperty]
  rw [if_neg hproperty, if_neg hproperty]
  cases program.syntaxOf item with
  | SpreadElement argument => rcases fromSpread argument with _ | _ | _ | _ <;> rfl
  | ObjectExpression | Property | Identifier | StringLiteral | NumberLiteral | other => rfl

/-- The result is right for an item. -/
def RightFor (key : String) (item : Node) : Result Node → Prop
  | .property property => Gives program key item property
  | .null => ¬ Provides program key item ∧ ¬ HasHole program item
  | .undefined => ¬ Provides program key item ∧ HasHole program item

/-- The result is right for a list of items, after a hole or not. -/
def RightForAll (key : String) (items : List Node) (unresolved : Bool) : Result Node → Prop
  | .property property => LastOf program key items property
  | .null => (∀ item ∈ items, ¬ Provides program key item ∧ ¬ HasHole program item) ∧ unresolved = false
  | .undefined =>
    (∀ item ∈ items, ¬ Provides program key item) ∧ (unresolved = true ∨ ∃ item ∈ items, HasHole program item)

variable {program} {key : String}

theorem Gives.provides {item property : Node} (h : Gives program key item property) :
    Provides program key item := by
  induction h with
  | property hname => exact .property hname
  | spread htarget hitems _ _ ih =>
    exact .spread htarget (hitems ▸ List.mem_append_right _ List.mem_cons_self) ih

theorem searchFrom_right {fromSpread : Node → Option (Result Node)} {items : List Node} {unresolved : Bool}
    {result : Result Node}
    (hitems : ∀ item ∈ items, ∀ r, resultOf program fromSpread key item = some r → RightFor program key item r)
    (h : searchFrom program fromSpread key items.reverse unresolved = some result) :
    RightForAll program key items unresolved result := by
  induction items using List.reverseRecOn generalizing unresolved with
  | nil =>
    cases unresolved with
    | true =>
      obtain rfl := Option.some.inj h
      exact ⟨nofun, .inl rfl⟩
    | false =>
      obtain rfl := Option.some.inj h
      exact ⟨nofun, rfl⟩
  | append_singleton items item ih =>
    rw [List.reverse_append, List.reverse_singleton, List.singleton_append, searchFrom_cons] at h
    have hlast := hitems item (List.mem_append_right _ List.mem_cons_self)
    have hrest := fun other hother => hitems other (List.mem_append_left _ hother)
    have hmem : ∀ {P : Node → Prop}, (∀ other ∈ items, P other) → P item → ∀ other ∈ items ++ [item], P other := by
      intro P hall hself other hother
      rcases List.mem_append.mp hother with hother | hother
      · exact hall other hother
      · exact List.mem_singleton.mp hother ▸ hself
    have hsnoc : ∀ {property}, ¬ Provides program key item → LastOf program key items property →
        LastOf program key (items ++ [item]) property := by
      rintro property hnot ⟨before, inner, after, rfl, hgives, hafter⟩
      refine ⟨before, inner, after ++ [item], by simp, hgives, fun later hlater => ?_⟩
      rcases List.mem_append.mp hlater with hlater | hlater
      · exact hafter later hlater
      · exact List.mem_singleton.mp hlater ▸ hnot
    cases hresult : resultOf program fromSpread key item with
    | none => simp [hresult] at h
    | some r =>
      have hright := hlast r hresult
      rw [hresult] at h
      cases r with
      | property property =>
        obtain rfl := Option.some.inj h
        exact ⟨items, item, [], rfl, hright, nofun⟩
      | null =>
        have hrec := ih hrest h
        cases result with
        | property property => exact hsnoc hright.1 hrec
        | null => exact ⟨hmem hrec.1 hright, hrec.2⟩
        | undefined =>
          refine ⟨hmem hrec.1 hright.1, hrec.2.imp_right ?_⟩
          rintro ⟨other, hother, hhole⟩
          exact ⟨other, List.mem_append_left _ hother, hhole⟩
      | undefined =>
        have hrec := ih hrest h
        cases result with
        | property property => exact hsnoc hright.1 hrec
        | null => exact absurd hrec.2 (by simp)
        | undefined =>
          exact ⟨hmem hrec.1 hright.1, .inr ⟨item, List.mem_append_right _ List.mem_cons_self, hright.2⟩⟩

/-! ### What is found -/

theorem resultOf_right {recurse : Option Node → Option (Result Node)} {item : Node} {result : Result Node}
    (hplain : PlainKey program key item)
    (hrecurse : ∀ target r, targetOf program item = some target → recurse (some target) = some r →
      RightForAll program key (itemsOf program target) false r)
    (h : resultOf program (getPropertyFromSpreadElement program recurse) key item = some result) :
    RightFor program key item result := by
  rw [resultOf] at h
  by_cases hproperty : isProperty program key item = true
  · rw [if_pos hproperty] at h
    obtain rfl := Option.some.inj h
    exact .property ((isProperty_iff program hplain).mp hproperty)
  rw [if_neg hproperty] at h
  have hname : nameOf program item ≠ some key := mt (isProperty_iff program hplain).mpr hproperty
  cases hitem : program.syntaxOf item with
  | SpreadElement argument =>
    rw [hitem] at h
    dsimp only at h
    rw [getPropertyFromSpreadElement_eq] at h
    have htarget : targetOf program item = spreadTarget program argument := by
      rw [targetOf, hitem]
    cases hspread : spreadTarget program argument with
    | none =>
      rw [hspread] at h htarget
      obtain rfl := Option.some.inj h
      refine ⟨?_, .hole ⟨argument, hitem, hspread⟩⟩
      rintro (h | ⟨h, -, -⟩)
      · exact hname h
      · simp [htarget] at h
    | some target =>
      rw [hspread] at h htarget
      have hinner := hrecurse target result htarget h
      have hnot : (∀ inner ∈ itemsOf program target, ¬ Provides program key inner) → ¬ Provides program key item := by
        rintro hall (h | ⟨h, hmem, hinner⟩)
        · exact hname h
        · rw [htarget] at h
          obtain rfl := Option.some.inj h
          exact hall _ hmem hinner
      cases result with
      | property property =>
        obtain ⟨before, inner, after, hitems, hgives, hafter⟩ := hinner
        exact .spread htarget hitems hgives hafter
      | null =>
        refine ⟨hnot fun inner hmem => (hinner.1 inner hmem).1, ?_⟩
        rintro (⟨other, hother, hnone⟩ | ⟨h, hmem, hhole⟩)
        · rw [hitem] at hother
          obtain rfl := Syntax.SpreadElement.inj hother
          simp [hspread] at hnone
        · rw [htarget] at h
          obtain rfl := Option.some.inj h
          exact (hinner.1 _ hmem).2 hhole
      | undefined =>
        refine ⟨hnot hinner.1, ?_⟩
        obtain hfalse | ⟨inner, hmem, hhole⟩ := hinner.2
        · cases hfalse
        · exact .spread htarget hmem hhole
  | ObjectExpression | Property | Identifier | StringLiteral | NumberLiteral | other =>
    rw [hitem] at h
    obtain rfl := Option.some.inj h
    have htarget : targetOf program item = none := by
      rw [targetOf, hitem]
    constructor
    · rintro (h | ⟨h, -, -⟩)
      · exact hname h
      · simp [htarget] at h
    · rintro (⟨other, hother, -⟩ | ⟨h, -, -⟩)
      · simp [hitem] at hother
      · simp [htarget] at h

/-- The keys in all the literals that are spread into the literal. -/
def PlainKeys (program : Program Node) (key : String) (expr : Node) : Prop :=
  ∀ literal, Relation.ReflTransGen (Spreads program) expr literal → ∀ item ∈ itemsOf program literal,
    PlainKey program key item

theorem PlainKeys.target {expr item target : Node} (h : PlainKeys program key expr)
    (hitem : item ∈ itemsOf program expr) (htarget : targetOf program item = some target) : PlainKeys program key target :=
  fun literal hpath => h literal (.head ⟨item, hitem, htarget⟩ hpath)

theorem getProperty_right {fuel : ℕ} {expr : Node} {result : Result Node} (hplain : PlainKeys program key expr)
    (h : getProperty program key fuel (some expr) = some result) :
    RightForAll program key (itemsOf program expr) false result := by
  induction fuel generalizing expr result with
  | zero => cases h
  | succ fuel ih =>
    rw [getProperty] at h
    rw [itemsOf]
    cases hexpr : program.syntaxOf expr with
    | ObjectExpression properties =>
      rw [hexpr] at h
      refine searchFrom_right (fun item hitem r hr => ?_) h
      have hmem : item ∈ itemsOf program expr := by
        rwa [itemsOf, hexpr]
      exact resultOf_right (hplain expr .refl item hmem)
        (fun target r htarget hrec => ih (hplain.target hmem htarget) hrec) hr
    | Property | SpreadElement | Identifier | StringLiteral | NumberLiteral | other =>
      rw [hexpr] at h
      obtain rfl := Option.some.inj h
      exact ⟨nofun, rfl⟩

/-! ### Fuel -/

omit [DecidableEq Node] in
theorem resultOf_mono {f g : Node → Option (Result Node)}
    (hfg : ∀ argument r, f argument = some r → g argument = some r) {item : Node} {result : Result Node}
    (h : resultOf program f key item = some result) : resultOf program g key item = some result := by
  unfold resultOf at h ⊢
  by_cases hproperty : isProperty program key item = true
  · rwa [if_pos hproperty] at h ⊢
  rw [if_neg hproperty] at h ⊢
  cases hitem : program.syntaxOf item with
  | SpreadElement argument => exact hfg argument result (by rwa [hitem] at h)
  | ObjectExpression | Property | Identifier | StringLiteral | NumberLiteral | other => rwa [hitem] at h

omit [DecidableEq Node] in
theorem searchFrom_mono {f g : Node → Option (Result Node)}
    (hfg : ∀ argument r, f argument = some r → g argument = some r) {items : List Node} {unresolved : Bool}
    {result : Result Node}
    (h : searchFrom program f key items unresolved = some result) :
    searchFrom program g key items unresolved = some result := by
  induction items generalizing unresolved with
  | nil => exact h
  | cons item rest ih =>
    rw [searchFrom_cons] at h ⊢
    cases hf : resultOf program f key item with
    | none => simp [hf] at h
    | some r =>
      rw [resultOf_mono hfg hf]
      rw [hf] at h
      cases r with
      | property property => exact h
      | null => exact ih h
      | undefined => exact ih h

theorem spread_mono {f g : Option Node → Option (Result Node)} (hfg : ∀ node r, f node = some r → g node = some r)
    (argument : Node) (result : Result Node) (h : getPropertyFromSpreadElement program f argument = some result) :
    getPropertyFromSpreadElement program g argument = some result := by
  rw [getPropertyFromSpreadElement_eq] at h ⊢
  cases hspread : spreadTarget program argument with
  | none => rwa [hspread] at h
  | some target =>
    rw [hspread] at h
    exact hfg _ _ h

theorem getProperty_mono {fuel fuel' : ℕ} {expr : Option Node} {result : Result Node}
    (h : getProperty program key fuel expr = some result) (hle : fuel ≤ fuel') :
    getProperty program key fuel' expr = some result := by
  induction fuel generalizing fuel' expr result with
  | zero => cases h
  | succ fuel ih =>
    obtain ⟨fuel', rfl⟩ : ∃ k, fuel' = k + 1 := ⟨fuel' - 1, by omega⟩
    cases expr with
    | none => exact h
    | some expr =>
      rw [getProperty] at h ⊢
      cases hexpr : program.syntaxOf expr with
      | ObjectExpression properties =>
        rw [hexpr] at h
        exact searchFrom_mono (spread_mono fun node r hr => ih hr (by omega)) h
      | Property | SpreadElement | Identifier | StringLiteral | NumberLiteral | other => rwa [hexpr] at h

/-! ### Returning -/

/-- The loop looks at an item when none after it provides the key. -/
theorem searchFrom_returns {fromSpread : Node → Option (Result Node)} {items : List Node} {unresolved : Bool}
    (hright : ∀ item ∈ items, ∀ r, resultOf program fromSpread key item = some r → RightFor program key item r)
    (hreturns : ∀ before item after, items = before ++ item :: after → (∀ later ∈ after, ¬ Provides program key later) →
      ∃ r, resultOf program fromSpread key item = some r) :
    ∃ result, searchFrom program fromSpread key items.reverse unresolved = some result := by
  induction items using List.reverseRecOn generalizing unresolved with
  | nil => exact ⟨_, rfl⟩
  | append_singleton items item ih =>
    rw [List.reverse_append, List.reverse_singleton, List.singleton_append]
    simp only [searchFrom_cons]
    obtain ⟨r, hr⟩ := hreturns items item [] rfl nofun
    have hitem := hright item (List.mem_append_right _ List.mem_cons_self) r hr
    have hrest : ¬ Provides program key item → ∀ unresolved,
        ∃ result, searchFrom program fromSpread key items.reverse unresolved = some result := by
      intro hnot unresolved
      refine ih (fun other hother => hright other (List.mem_append_left _ hother))
        fun before other after hsplit hafter => ?_
      refine hreturns before other (after ++ [item]) (by simp [hsplit]) fun later hlater => ?_
      rcases List.mem_append.mp hlater with hlater | hlater
      · exact hafter later hlater
      · exact List.mem_singleton.mp hlater ▸ hnot
    rw [hr]
    cases r with
    | property property => exact ⟨_, rfl⟩
    | null => exact hrest hitem.1 unresolved
    | undefined => exact hrest hitem.1 true

/-- An item that is looked at has a result when the literal that it spreads has one. -/
theorem resultOf_returns {expr item : Node} {before after : List Node}
    (hsplit : itemsOf program expr = before ++ item :: after) (hafter : ∀ later ∈ after, ¬ Provides program key later)
    (hvisits : ∀ target, Visits program key expr target →
      ∃ fuel result, getProperty program key fuel (some target) = some result) :
    ∃ fuel result, resultOf program (getPropertyFromSpreadElement program (getProperty program key fuel)) key item =
      some result := by
  unfold resultOf
  by_cases hproperty : isProperty program key item = true
  · exact ⟨0, _, if_pos hproperty⟩
  simp only [if_neg hproperty]
  cases hitem : program.syntaxOf item with
  | SpreadElement argument =>
    simp only [getPropertyFromSpreadElement_eq]
    cases hspread : spreadTarget program argument with
    | none => exact ⟨0, _, rfl⟩
    | some target => exact hvisits target ⟨before, item, after, hsplit, by rw [targetOf, hitem]; exact hspread, hafter⟩
  | ObjectExpression | Property | Identifier | StringLiteral | NumberLiteral | other => exact ⟨0, _, rfl⟩

theorem getProperty_returns {expr : Node} (hplain : PlainKeys program key expr)
    (hacc : Acc (fun target literal => Visits program key literal target) expr) :
    ∃ fuel result, getProperty program key fuel (some expr) = some result := by
  induction hacc with
  | intro expr _ ih =>
    cases hexpr : program.syntaxOf expr with
    | ObjectExpression properties =>
      have hitems : itemsOf program expr = properties := by
        rw [itemsOf, hexpr]
      -- a number of steps that suffices for every item that is looked at
      obtain ⟨fuel, hfuel⟩ : ∃ fuel, ∀ item ∈ properties, ∀ before after, properties = before ++ item :: after →
          (∀ later ∈ after, ¬ Provides program key later) → ∃ r, resultOf program
            (getPropertyFromSpreadElement program (getProperty program key fuel)) key item = some r := by
        refine exists_common (fun {n m item} hn hle before after hsplit hafter => ?_) fun item _ => ?_
        · obtain ⟨r, hr⟩ := hn before after hsplit hafter
          exact ⟨r, resultOf_mono (spread_mono fun node r hr => getProperty_mono hr hle) hr⟩
        · by_cases hlast : ∃ before after, properties = before ++ item :: after ∧
              ∀ later ∈ after, ¬ Provides program key later
          · obtain ⟨before, after, hsplit, hafter⟩ := hlast
            obtain ⟨fuel, r, hr⟩ := resultOf_returns (hitems.trans hsplit) hafter fun target hvisits => by
              obtain ⟨before', inner, after', hsplit', htarget, -⟩ := id hvisits
              exact ih target hvisits
                (hplain.target (hsplit' ▸ List.mem_append_right _ List.mem_cons_self) htarget)
            exact ⟨fuel, fun _ _ _ _ => ⟨r, hr⟩⟩
          · exact ⟨0, fun before after hsplit hafter => absurd ⟨before, after, hsplit, hafter⟩ hlast⟩
      refine ⟨fuel + 1, ?_⟩
      simp only [getProperty, hexpr]
      refine searchFrom_returns (fun item hitem r hr => ?_) fun before item after hsplit hafter =>
        hfuel item (hsplit ▸ List.mem_append_right _ List.mem_cons_self) before after hsplit hafter
      have hmem : item ∈ itemsOf program expr := hitems.symm ▸ hitem
      exact resultOf_right (hplain expr .refl item hmem)
        (fun target r htarget hrec => getProperty_right (hplain.target hmem htarget) hrec) hr
    | Property | SpreadElement | Identifier | StringLiteral | NumberLiteral | other =>
      exact ⟨1, .null, by rw [getProperty, hexpr]⟩

/-! ### The result -/

omit [DecidableEq Node] in
theorem last_unique {P : Node → Prop} {before after before' after' : List Node} {x y : Node}
    (h : before ++ x :: after = before' ++ y :: after') (hx : P x) (hy : P y) (hafter : ∀ z ∈ after, ¬ P z)
    (hafter' : ∀ z ∈ after', ¬ P z) : x = y := by
  rcases List.append_eq_append_iff.mp h with ⟨mid, -, hmid⟩ | ⟨mid, -, hmid⟩
  · cases mid with
    | nil => exact (List.cons.inj hmid).1
    | cons z mid =>
      obtain ⟨-, rfl⟩ := List.cons.inj hmid
      exact absurd hy (hafter y (List.mem_append_right _ List.mem_cons_self))
  · cases mid with
    | nil => exact (List.cons.inj hmid).1.symm
    | cons z mid =>
      obtain ⟨-, rfl⟩ := List.cons.inj hmid
      exact absurd hx (hafter' x (List.mem_append_right _ List.mem_cons_self))

theorem targetOf_eq_none {item : Node} (h : nameOf program item = some key) :
    targetOf program item = none := by
  unfold nameOf at h
  unfold targetOf
  cases hitem : program.syntaxOf item with
  | SpreadElement argument => simp [hitem] at h
  | ObjectExpression | Property | Identifier | StringLiteral | NumberLiteral | other => rfl

theorem Gives.unique {item property property' : Node} (h : Gives program key item property)
    (h' : Gives program key item property') : property = property' := by
  induction h generalizing property' with
  | property hname =>
    cases h' with
    | property => rfl
    | spread htarget => simp [targetOf_eq_none hname] at htarget
  | spread htarget hitems hgives hafter ih =>
    cases h' with
    | property hname => simp [targetOf_eq_none hname] at htarget
    | spread htarget' hitems' hgives' hafter' =>
      rw [htarget] at htarget'
      obtain rfl := Option.some.inj htarget'
      obtain rfl := last_unique (hitems.symm.trans hitems') hgives.provides hgives'.provides hafter hafter'
      exact ih hgives'

theorem LastOf.unique {items : List Node} {property property' : Node} (h : LastOf program key items property)
    (h' : LastOf program key items property') : property = property' := by
  obtain ⟨before, item, after, hitems, hgives, hafter⟩ := h
  obtain ⟨before', item', after', hitems', hgives', hafter'⟩ := h'
  obtain rfl := last_unique (hitems.symm.trans hitems') hgives.provides hgives'.provides hafter hafter'
  exact hgives.unique hgives'

theorem LastOf.exists_provides {items : List Node} {property : Node} (h : LastOf program key items property) :
    ∃ item ∈ items, Provides program key item := by
  obtain ⟨before, item, after, rfl, hgives, -⟩ := h
  exact ⟨item, List.mem_append_right _ List.mem_cons_self, hgives.provides⟩

variable (program) (key) in
/-- When the search does not come back to a literal, `getProperty` returns the last property for the key, whatever
unknown is spread after it. Without one it returns null, or undefined if something unknown is spread. -/
theorem getProperty_last_wins [Finite Node] (expr : Node) (hplain : PlainKeys program key expr) :
    (AcyclicFrom (Visits program key) expr → ∃ fuel result, getProperty program key fuel (some expr) = some result) ∧
    ∀ fuel result, getProperty program key fuel (some expr) = some result →
      (∀ property, result = .property property ↔ LastOf program key (itemsOf program expr) property) ∧
      (result = .null ↔ ∀ item ∈ itemsOf program expr, ¬ Provides program key item ∧ ¬ HasHole program item) ∧
      (result = .undefined ↔ (∀ item ∈ itemsOf program expr, ¬ Provides program key item) ∧
        ∃ item ∈ itemsOf program expr, HasHole program item) := by
  refine ⟨fun hacyclic => getProperty_returns hplain hacyclic.acc, fun fuel result h => ?_⟩
  have hright := getProperty_right hplain h
  have hnoLast : (∀ item ∈ itemsOf program expr, ¬ Provides program key item) →
      ∀ property, ¬ LastOf program key (itemsOf program expr) property := by
    intro hnot property hlast
    obtain ⟨item, hmem, hitem⟩ := hlast.exists_provides
    exact hnot item hmem hitem
  cases result with
  | property property =>
    refine ⟨fun property' => ⟨?_, ?_⟩, ⟨nofun, fun hnull => ?_⟩, ⟨nofun, fun hundefined => ?_⟩⟩
    · intro heq
      exact Result.property.inj heq ▸ hright
    · intro hlast
      exact congrArg Result.property (hright.unique hlast)
    · exact absurd hright (hnoLast (fun item hmem => (hnull item hmem).1) property)
    · exact absurd hright (hnoLast hundefined.1 property)
  | null =>
    obtain ⟨hnone, -⟩ := hright
    refine ⟨fun property => ⟨nofun, fun hlast => ?_⟩, ⟨fun _ => hnone, fun _ => rfl⟩, ⟨nofun, ?_⟩⟩
    · exact absurd hlast (hnoLast (fun item hmem => (hnone item hmem).1) property)
    · rintro ⟨-, item, hmem, hhole⟩
      exact absurd hhole (hnone item hmem).2
  | undefined =>
    obtain ⟨hnone, hfalse | hhole⟩ := hright
    · cases hfalse
    refine ⟨fun property => ⟨nofun, fun hlast => ?_⟩, ⟨nofun, fun hnull => ?_⟩, ⟨fun _ => ⟨hnone, hhole⟩, fun _ => rfl⟩⟩
    · exact absurd hlast (hnoLast hnone property)
    · obtain ⟨item, hmem, hitem⟩ := hhole
      exact absurd hitem (hnull item hmem).2

/-! ### An unknown spread after the property -/

/-- The nodes of `const a = { k: 1, ...unknown }; ({ ...a });` that are looked at. -/
inductive ExampleNode
  | literal | property | nameK | spread | unknown | copy | spreadOfA | useOfA
  deriving DecidableEq, Repr

namespace ExampleNode

def literals : Program ExampleNode where
  syntaxOf
    | literal => .ObjectExpression [property, spread]
    | property => .Property nameK false
    | nameK => .Identifier "k"
    | spread => .SpreadElement unknown
    | unknown => .Identifier "unknown"
    | copy => .ObjectExpression [spreadOfA]
    | spreadOfA => .SpreadElement useOfA
    | useOfA => .Identifier "a"
  getScope _ := .global [⟨"a", [⟨true, some literal⟩, ⟨false, none⟩]⟩]
  ancestorsChain
    | unknown => [spread, literal]
    | useOfA => [spreadOfA, copy]
    | _ => []

instance : Finite ExampleNode :=
  Finite.of_surjective
    (fun i : Fin 8 => [literal, property, nameK, spread, unknown, copy, spreadOfA, useOfA].get i)
    fun node => by cases node <;> decide

theorem eq_of_spreads {node target : ExampleNode} (h : Spreads literals node target) :
    node = copy ∧ target = literal := by
  obtain ⟨item, hitem, htarget⟩ := h
  have hproperty : targetOf literals property = none := rfl
  have hspread : targetOf literals spread = none := rfl
  have hspreadOfA : targetOf literals spreadOfA = some literal := rfl
  cases node with
  | literal =>
    rcases List.mem_pair.mp hitem with rfl | rfl
    · simp [hproperty] at htarget
    · simp [hspread] at htarget
  | copy =>
    obtain rfl := List.mem_singleton.mp hitem
    exact ⟨rfl, Option.some.inj (htarget.symm.trans hspreadOfA)⟩
  | property | nameK | spread | unknown | spreadOfA | useOfA => cases hitem

theorem plainKeys (node : ExampleNode) : PlainKeys literals "k" node := by
  intro expr _ item _ propertyKey computed hproperty
  cases item with
  | property =>
    obtain ⟨rfl, rfl⟩ := Syntax.Property.inj hproperty
    exact ⟨by decide, nofun⟩
  | literal | nameK | spread | unknown | copy | spreadOfA | useOfA => cases hproperty

theorem acyclic (node : ExampleNode) : AcyclicFrom (Visits literals "k") node := by
  refine acyclicFrom_of_lt (fun node => if node = copy then 1 else 0) (fun b c hvisits => ?_) node
  obtain ⟨before, item, after, hitems, htarget, -⟩ := hvisits
  obtain ⟨rfl, rfl⟩ := eq_of_spreads ⟨item, hitems ▸ List.mem_append_right _ List.mem_cons_self, htarget⟩
  decide

end ExampleNode

theorem getProperty_last_wins_copy :
    (∃ fuel result, getProperty ExampleNode.literals "k" fuel (some .copy) = some result) ∧
      getProperty ExampleNode.literals "k" 2 (some .copy) = some (.property .property) ∧
      LastOf ExampleNode.literals "k" [.spreadOfA] .property := by
  have hreturned : getProperty ExampleNode.literals "k" 2 (some .copy) = some (.property .property) := by
    rfl
  obtain ⟨hreturns, hresult⟩ := getProperty_last_wins ExampleNode.literals "k" .copy (ExampleNode.plainKeys .copy)
  exact ⟨hreturns (ExampleNode.acyclic .copy), hreturned, ((hresult 2 _ hreturned).1 .property).mp rfl⟩

/-- In no run is the property replaced by something after it. -/
def Definite {Node : Type} [DecidableEq Node] (program : Program Node) (key : String) (items : List Node)
    (property : Node) : Prop :=
  ∃ before item after, items = before ++ item :: after ∧ Gives program key item property ∧
    ∀ later ∈ after, ¬ Provides program key later ∧ ¬ HasHole program later

/-- `{ k: 1, ...unknown }` gives its property `k`, which the unknown may replace. -/
theorem unknown_after_property_not_definite :
    ¬ ∀ (Node : Type) (_ : DecidableEq Node) (_ : Finite Node) (program : Program Node) (key : String)
      (expr property : Node), PlainKeys program key expr → AcyclicFrom (Visits program key) expr →
      (∃ fuel, getProperty program key fuel (some expr) = some (.property property)) →
        Definite program key (itemsOf program expr) property := by
  intro h
  obtain ⟨before, item, after, hitems, hgives, hafter⟩ := h ExampleNode inferInstance inferInstance
    ExampleNode.literals "k" .literal .property (ExampleNode.plainKeys _) (ExampleNode.acyclic _) ⟨1, rfl⟩
  have hhole : HasHole ExampleNode.literals .spread := .hole ⟨.unknown, rfl, rfl⟩
  have hlist : [ExampleNode.property, .spread] = before ++ item :: after := hitems
  rcases before with _ | ⟨first, before⟩
  · obtain ⟨rfl, rfl⟩ := List.cons.inj hlist
    exact (hafter .spread List.mem_cons_self).2 hhole
  · obtain ⟨rfl, hrest⟩ := List.cons.inj hlist
    obtain ⟨rfl, rfl, rfl⟩ : before = [] ∧ item = .spread ∧ after = [] := by
      rcases before with _ | ⟨second, before⟩
      · obtain ⟨rfl, rfl⟩ := List.cons.inj hrest
        exact ⟨rfl, rfl, rfl⟩
      · simp at hrest
    have hname : nameOf ExampleNode.literals .spread = none := rfl
    have htarget : targetOf ExampleNode.literals .spread = none := rfl
    cases hgives with
    | spread h => simp [htarget] at h

end SonarJavascript.Helpers.ObjectProperty
