import SonarJavascript.Regex.Matcher

/-!
# S6019: reluctant quantifiers at the end of an alternative

Where nothing that can fail follows a reluctant quantifier, it has the least number of turns. In front of `$`, being
reluctant changes nothing, unless `$` is the end of a line: what is said about a regular expression is sound for given
flags, text and start just if there is no flag `m` or no line terminator from the start on (`sound_iff`).
-/

namespace SonarJavascript.Rules.ReluctantQuantifiers

open Regex Repetition

/-! ### The rule -/

inductive Advice
  | repetitions (min : ℕ)
  | removal

def Advice.message : Advice → String
  | repetitions min =>
    let ending := if min = 1 then "" else "s"
    "Fix this reluctant quantifier that will only ever match " ++ toString min ++ " repetition" ++ ending ++ "."
  | removal => "Remove the '?' from this unnecessarily reluctant quantifier."

/-- On the element of an alternative with this index. -/
structure Report where
  advice : Advice
  regexpNode : Node
  index : ℕ

def checkElements (elements : List Node) : Option Report :=
  if elements.length = 0 then none
  else
    let lastElement := elements[elements.length - 1]?
    match lastElement with
    | some (.Quantifier element min max false text) =>
      some ⟨.repetitions min, .Quantifier element min max false text, elements.length - 1⟩
    | _ =>
      if elements.length = 1 then none
      else
        match elements[elements.length - 2]? with
        | some (.Quantifier element min max false text) =>
          match lastElement with
          | some (.Edge raw) =>
            if raw = units "$" then some ⟨.removal, .Quantifier element min max false text, elements.length - 2⟩ else none
          | some (.Quantifier _ 0 _ _ _) =>
            some ⟨.repetitions min, .Quantifier element min max false text, elements.length - 2⟩
          | _ => none
        | _ => none

def elementsOf : Node → List Node
  | .Alternative elements => elements
  | _ => []

def onRegExpLiteralEnter : Node → List (Option Report)
  | .Pattern alternatives => alternatives.map fun alternative => checkElements (elementsOf alternative)
  | _ => []

/-! ### What the reports say -/

/-- A reluctant quantifier in an alternative of a pattern. -/
structure Place where
  earlier : List Node
  before : List Node
  element : Node
  min : ℕ
  max : Option ℕ
  text : JsString
  after : List Node
  later : List Node
  bounds : ∀ m ∈ max, min ≤ m

namespace Place

variable (place : Place)

/-- Greedy without its `?`. -/
def quantifier (greedy : Bool) : Node :=
  .Quantifier place.element place.min place.max greedy (if greedy then place.text.dropLast else place.text)

def elements (greedy : Bool) : List Node := place.before ++ place.quantifier greedy :: place.after

def pattern (greedy : Bool) : Node := .Pattern (place.earlier ++ .Alternative (place.elements greedy) :: place.later)

def IsReported (advice : Advice) : Prop :=
  (onRegExpLiteralEnter (place.pattern false))[place.earlier.length]? =
    some (some ⟨advice, place.quantifier false, place.before.length⟩)

/-- The ways through the alternative, each with the number of turns of the quantifier. -/
def countedWays (E : Engine) (flags : JsString) (x : State) : List (ℕ × State) :=
  (E.waysOfAll place.before flags .forward x).flatMap fun y =>
    (repeated (E.turn place.element flags .forward) (E.remaining .forward) false place.min place.max y).flatMap
      fun (turns, z) => (E.waysOfAll place.after flags .forward z).map fun w => (turns, w)

end Place

section Soundness

variable (E : Engine) (flags : JsString) (start : ℕ)

/-- In a match that goes through the alternative, the quantifier has the given number of turns. -/
def RepetitionsSound : Prop :=
  ∀ (place : Place) (n : ℕ), place.IsReported (.repetitions n) →
    E.waysOfAny place.earlier flags .forward (.initial start) = [] →
    E.waysOfAll (place.elements false) flags .forward (.initial start) ≠ [] →
    ∃ y, E.exec (place.pattern false) flags start = some y ∧
      (place.countedWays E flags (.initial start)).head? = some (n, y)

/-- Without the `?`, what is matched is the same. -/
def RemovalSound : Prop :=
  ∀ place : Place, place.IsReported .removal →
    (E.exec (place.pattern false) flags start).map State.index =
      (E.exec (place.pattern true) flags start).map State.index

def Sound : Prop := RepetitionsSound E flags start ∧ RemovalSound E flags start

end Soundness

/-! ### The elements that are looked at -/

section Elements

variable {elements before after : List Node} {advice : Advice} {report : Report}

theorem length_le_of_checkElements (h : checkElements elements = some report) : elements.length ≤ report.index + 2 := by
  unfold checkElements at h
  split at h
  · exact nomatch h
  · dsimp only at h
    split at h
    · rw [← Option.some_inj.mp h]
      dsimp only
      omega
    · split at h
      · exact nomatch h
      · split at h
        · split at h
          · split at h
            · rw [← Option.some_inj.mp h]
              dsimp only
              omega
            · exact nomatch h
          · rw [← Option.some_inj.mp h]
            dsimp only
            omega
          · exact nomatch h
        · exact nomatch h

variable {element : Node} {min : ℕ} {max : Option ℕ} {text : JsString}

theorem checkElements_last : checkElements (before ++ [.Quantifier element min max false text]) =
    some ⟨.repetitions min, .Quantifier element min max false text, before.length⟩ := by
  have hlength : (before ++ [Node.Quantifier element min max false text]).length = before.length + 1 := by
    rw [List.length_append, List.length_singleton]
  rw [checkElements, hlength, if_neg (Nat.succ_ne_zero _), Nat.add_sub_cancel, List.getElem?_concat_length]

/-- Nothing, or what has a way to be left out. -/
def Omissible (after : List Node) : Prop :=
  after = [] ∨ ∃ element max greedy text, after = [.Quantifier element 0 max greedy text]

theorem checkElements_eq (h : checkElements (before ++ .Quantifier element min max false text :: after) =
      some ⟨advice, .Quantifier element min max false text, before.length⟩) :
    (advice = .repetitions min ∧ Omissible after) ∨ (advice = .removal ∧ after = [.Edge (units "$")]) := by
  rcases after with - | ⟨last, - | ⟨next, after⟩⟩
  · rw [checkElements_last] at h
    exact Or.inl ⟨(Report.mk.inj (Option.some_inj.mp h)).1.symm, Or.inl rfl⟩
  · have hlength : (before ++ [Node.Quantifier element min max false text, last]).length = before.length + 2 := by
      rw [List.length_append]
      rfl
    have hlast : (before ++ [Node.Quantifier element min max false text, last])[before.length + 1]? = some last := by
      rw [List.getElem?_append_right (Nat.le_add_right _ 1), Nat.add_sub_cancel_left]
      rfl
    have hbutOne : (before ++ [Node.Quantifier element min max false text, last])[before.length]? =
        some (Node.Quantifier element min max false text) := by
      rw [List.getElem?_append_right (Nat.le_refl _), Nat.sub_self]
      rfl
    rw [checkElements, hlength, if_neg (Nat.succ_ne_zero _), Nat.add_sub_cancel,
      show before.length + 2 - 1 = before.length + 1 from rfl, hlast, hbutOne] at h
    dsimp only at h
    split at h
    · exact absurd (Report.mk.inj (Option.some_inj.mp h)).2.2 (Nat.succ_ne_self _)
    · rw [if_neg (by omega)] at h
      split at h
      · next raw heq =>
        obtain rfl := Option.some_inj.mp heq
        split at h
        · next hraw =>
          rw [hraw]
          exact Or.inr ⟨(Report.mk.inj (Option.some_inj.mp h)).1.symm, rfl⟩
        · exact nomatch h
      · next element' max' greedy' text' heq =>
        obtain rfl := Option.some_inj.mp heq
        exact Or.inl ⟨(Report.mk.inj (Option.some_inj.mp h)).1.symm, Or.inr ⟨element', max', greedy', text', rfl⟩⟩
      · exact nomatch h
  · have hle := length_le_of_checkElements h
    rw [List.length_append] at hle
    simp only [List.length_cons] at hle
    omega

theorem Place.checkElements_of_isReported {place : Place} (h : place.IsReported advice) :
    (advice = .repetitions place.min ∧ Omissible place.after) ∨
      (advice = .removal ∧ place.after = [.Edge (units "$")]) := by
  have hreport : (onRegExpLiteralEnter (place.pattern false))[place.earlier.length]? =
      some (checkElements (place.elements false)) := by
    rw [pattern, onRegExpLiteralEnter, List.getElem?_map, List.getElem?_append_right (Nat.le_refl _), Nat.sub_self]
    rfl
  exact checkElements_eq (Option.some_inj.mp (hreport.symm.trans h))

end Elements

/-! ### Turns -/

namespace Place

variable {place : Place} {E : Engine} {flags : JsString} {x : State} {start : ℕ}

theorem exec_pattern (greedy : Bool) : E.exec (place.pattern greedy) flags start =
    ((E.waysOfAny place.earlier flags .forward (.initial start)).head?.or
      ((E.waysOfAll (place.elements greedy) flags .forward (.initial start)).head?.or
        (E.waysOfAny place.later flags .forward (.initial start)).head?)) := by
  rw [pattern, Engine.exec_pattern, Engine.waysOfAny_append, Engine.waysOfAny, Engine.ways, List.head?_append,
    List.head?_append]

theorem map_countedWays : (place.countedWays E flags x).map Prod.snd =
    E.waysOfAll (place.elements false) flags .forward x := by
  rw [elements, Engine.waysOfAll_append, countedWays, List.map_flatMap]
  refine congrArg (fun continuation => List.flatMap continuation _) (funext fun y => ?_)
  rw [Engine.waysOfAll, quantifier, Engine.ways_quantifier, List.map_flatMap, List.flatMap_map]
  refine congrArg (fun continuation => List.flatMap continuation _) (funext fun z => ?_)
  rw [List.map_map]
  exact List.map_id _

theorem turns_eq (hafter : ∀ z, E.waysOfAll place.after flags .forward z ≠ []) {turns : ℕ} {y : State}
    (h : (place.countedWays E flags x).head? = some (turns, y)) : turns = place.min := by
  rw [countedWays, List.head?_flatMap] at h
  obtain ⟨w, -, hhead⟩ := List.exists_of_findSome?_eq_some h
  generalize hways : repeated (E.turn place.element flags .forward) (E.remaining .forward) false place.min place.max w =
    ways at hhead
  rcases ways with - | ⟨⟨first, z⟩, ways⟩
  · exact nomatch hhead
  · have hfirst : first = place.min := head?_repeated place.bounds (congrArg List.head? hways)
    obtain ⟨v, vs, hv⟩ := List.exists_cons_of_ne_nil (hafter z)
    rw [List.flatMap_cons] at hhead
    dsimp only at hhead
    rw [hv, List.map_cons, List.cons_append, List.head?_cons] at hhead
    exact (Prod.mk.inj (Option.some_inj.mp hhead)).1.symm.trans hfirst

end Place

theorem waysOfAll_ne_nil {E : Engine} {flags : JsString} {after : List Node} (h : Omissible after) (z : State) :
    E.waysOfAll after flags .forward z ≠ [] := by
  rcases h with rfl | ⟨element, max, greedy, text, rfl⟩
  · rw [Engine.waysOfAll]
    exact List.cons_ne_nil z []
  · have hnotNil : further (E.turn element flags .forward) (E.remaining .forward) greedy max z ≠ [] := further_ne_nil max z
    rw [Engine.waysOfAll_singleton, Engine.ways_quantifier, repeated]
    exact fun hnil => hnotNil (List.map_eq_nil_iff.mp hnil)

theorem repetitionsSound (E : Engine) (flags : JsString) (start : ℕ) : RepetitionsSound E flags start := by
  intro place n hreport hearlier hways
  rcases Place.checkElements_of_isReported hreport with ⟨hadvice, hafter⟩ | ⟨hadvice, -⟩
  · obtain rfl := Advice.repetitions.inj hadvice
    obtain ⟨y, ys, hy⟩ := List.exists_cons_of_ne_nil hways
    refine ⟨y, ?_, ?_⟩
    · rw [Place.exec_pattern, hearlier, hy]
      rfl
    · rw [← Place.map_countedWays] at hy
      obtain ⟨⟨turns, z⟩, rest, hcounted, rfl, -⟩ := List.map_eq_cons_iff.mp hy
      have hhead := congrArg List.head? hcounted
      rw [hhead, Place.turns_eq (waysOfAll_ne_nil hafter) hhead]
      rfl
  · exact nomatch hadvice

/-! ### Without the `?` -/

section Removal

variable {E : Engine} {flags : JsString} {start : ℕ} {x : State}

/-- No line ends between the start and the end. -/
def OneLine (E : Engine) (flags : JsString) (start : ℕ) : Prop :=
  109 ∉ flags ∨ ∀ j, start ≤ j → E.lineTerminatorAt j = false

theorem isEdge_end (i : ℕ) :
    E.isEdge flags (units "$") i = true ↔ i = E.text.length ∨ 109 ∈ flags ∧ E.lineTerminatorAt i = true := by
  rw [Engine.isEdge, if_pos rfl, Bool.or_eq_true, Bool.and_eq_true, decide_eq_true_eq, decide_eq_true_eq]

theorem index_of_mem (hline : OneLine E flags x.index) {elements : List Node} {y : State}
    (h : y ∈ E.waysOfAll (elements ++ [.Edge (units "$")]) flags .forward x) : y.index = E.text.length := by
  rw [Engine.waysOfAll_edge] at h
  obtain ⟨hy, hedge⟩ := List.mem_filter.mp h
  rcases (isEdge_end y.index).mp hedge with hend | ⟨hm, hterminator⟩
  · exact hend
  · rcases hline with habsent | hnone
    · exact absurd hm habsent
    · have hle : x.index ≤ y.index := (leads_of_mem_waysOfAll _ _ _ _ hy).1
      exact absurd hterminator (Bool.eq_false_iff.mp (hnone y.index hle))

/-- Lists with the same members, all with one index, start with this index or are both empty. -/
theorem head?_index_eq {ys zs : List State} {i : ℕ} (hmem : ∀ y, y ∈ ys ↔ y ∈ zs) (hindex : ∀ y ∈ ys, y.index = i) :
    ys.head?.map State.index = zs.head?.map State.index := by
  rcases ys with - | ⟨y, ys⟩
  · rw [List.eq_nil_iff_forall_not_mem.mpr fun z hz => List.not_mem_nil ((hmem z).mpr hz)]
  · rcases zs with - | ⟨z, zs⟩
    · exact absurd ((hmem y).mp List.mem_cons_self) List.not_mem_nil
    · have hy := hindex y List.mem_cons_self
      have hz := hindex z ((hmem z).mpr List.mem_cons_self)
      rw [List.head?_cons, List.head?_cons, Option.map_some, Option.map_some, hy, hz]

theorem Place.mem_waysOfAll_greedy (place : Place) (y : State) :
    y ∈ E.waysOfAll (place.elements false) flags .forward x ↔
      y ∈ E.waysOfAll (place.elements true) flags .forward x := by
  rw [elements, elements, Engine.waysOfAll_append, Engine.waysOfAll_append, List.mem_flatMap, List.mem_flatMap]
  refine exists_congr fun z => and_congr_right fun _ => ?_
  rw [Engine.waysOfAll, Engine.waysOfAll, List.mem_flatMap, List.mem_flatMap]
  exact exists_congr fun w => and_congr_left fun _ => Engine.mem_ways_quantifier

theorem removalSound (hline : OneLine E flags start) : RemovalSound E flags start := by
  intro place hreport
  rcases Place.checkElements_of_isReported hreport with ⟨hadvice, -⟩ | ⟨-, hafter⟩
  · exact nomatch hadvice
  · have hheads : (E.waysOfAll (place.elements false) flags .forward (.initial start)).head?.map State.index =
        (E.waysOfAll (place.elements true) flags .forward (.initial start)).head?.map State.index := by
      refine head?_index_eq (i := E.text.length) place.mem_waysOfAll_greedy fun y hy => ?_
      rw [Place.elements, hafter, List.append_cons] at hy
      exact index_of_mem hline hy
    rw [Place.exec_pattern, Place.exec_pattern]
    simp only [Option.map_or, hheads]

/-! ### At the end of a line -/

/-- `[^]` -/
def anyCharacter : Node := .CharacterClass (units "[^") []

/-- The quantifier of `[^]*?$`. -/
def anything : Place where
  earlier := []
  before := []
  element := anyCharacter
  min := 0
  max := none
  text := units "*?"
  after := [.Edge (units "$")]
  later := []
  bounds := nofun

theorem isReported_anything : anything.IsReported .removal := rfl

/-- What `[^]` can take, with each end in the order in which it is tried. -/
def ends (greedy : Bool) (i length : ℕ) : List ℕ :=
  if greedy then (List.range' i (length - i + 1)).reverse else List.range' i (length - i + 1)

theorem ways_anyCharacter (hx : x.index < E.text.length) : E.ways anyCharacter flags .forward x = [x.moveTo (x.index + 1)] := by
  rw [anyCharacter, Engine.ways, E.character_any flags x.index hx]
  rfl

theorem ways_anyCharacter_end (hx : x.index = E.text.length) : E.ways anyCharacter flags .forward x = [] := by
  rw [anyCharacter, Engine.ways, hx, E.character_end flags]
  rfl

theorem map_index_anything (greedy : Bool) (hx : x.index ≤ E.text.length) :
    (E.ways (anything.quantifier greedy) flags .forward x).map State.index = ends greedy x.index E.text.length := by
  rw [Place.quantifier, Engine.ways_quantifier]
  change ((further (E.turn anyCharacter flags .forward) (E.remaining .forward) greedy none x).map Prod.snd).map State.index = _
  induction hleft : E.text.length - x.index generalizing x with
  | zero =>
    have hend : (x.reset anyCharacter.groups).index = E.text.length := Nat.le_antisymm hx (Nat.le_of_sub_eq_zero hleft)
    refine Eq.trans (congrArg (fun ways => (ways.map Prod.snd).map State.index) (further_nil none (ways_anyCharacter_end hend))) ?_
    rw [ends, hleft]
    cases greedy with
    | false => rfl
    | true => rfl
  | succ left ih =>
    have hbefore : (x.reset anyCharacter.groups).index < E.text.length := Nat.lt_of_sub_eq_succ hleft
    let y := (x.reset anyCharacter.groups).moveTo ((x.reset anyCharacter.groups).index + 1)
    have hindex : y.index = x.index + 1 := rfl
    have hless : E.remaining .forward y < E.remaining .forward x := by
      unfold Engine.remaining
      dsimp only
      omega
    have hleft' : E.text.length - (x.index + 1) = left := by omega
    have hnext := ih (x := y) hbefore hleft'
    refine Eq.trans (congrArg (List.map State.index) (map_further_singleton (ways_anyCharacter hbefore) hless)) ?_
    rw [ends, hleft]
    cases greedy with
    | false =>
      rw [if_neg Bool.false_ne_true, List.map_cons, hnext, ends, hindex, hleft']
      rfl
    | true =>
      rw [if_pos rfl, List.map_append, hnext, ends, hindex, hleft', if_pos rfl, if_pos rfl, List.range'_succ (s := x.index),
        List.reverse_cons]
      rfl

theorem exec_anything (greedy : Bool) (hstart : start ≤ E.text.length) :
    (E.exec (anything.pattern greedy) flags start).map State.index =
      (ends greedy start E.text.length).find? fun i => E.isEdge flags (units "$") i := by
  have hways : E.waysOfAll (anything.elements greedy) flags .forward (.initial start) =
      (E.ways (anything.quantifier greedy) flags .forward (.initial start)).filter
        fun y => E.isEdge flags (units "$") y.index :=
    (Engine.waysOfAll_edge [anything.quantifier greedy] (units "$")).trans (by rw [Engine.waysOfAll_singleton])
  have hindices : (E.ways (anything.quantifier greedy) flags .forward (.initial start)).map State.index =
      ends greedy start E.text.length := map_index_anything greedy hstart
  have hnone : E.waysOfAny [] flags .forward (.initial start) = [] := by rw [Engine.waysOfAny]
  have hearlier : E.waysOfAny anything.earlier flags .forward (.initial start) = [] := hnone
  have hlater : E.waysOfAny anything.later flags .forward (.initial start) = [] := hnone
  rw [Place.exec_pattern, hways, hearlier, hlater, List.head?_filter, List.head?_nil, Option.none_or, Option.or_none,
    ← hindices, List.find?_map]
  rfl

theorem oneLine_of_removalSound (h : RemovalSound E flags start) : OneLine E flags start := by
  refine or_iff_not_imp_left.mpr fun hm j hj => Bool.eq_false_iff.mpr fun hterminator => ?_
  have hm : 109 ∈ flags := not_not.mp hm
  have hlength : j < E.text.length := by
    refine Nat.lt_of_not_le fun hle => ?_
    rw [Engine.lineTerminatorAt, List.getElem?_eq_none hle] at hterminator
    exact nomatch hterminator
  have hstart : start ≤ E.text.length := Nat.le_trans hj (Nat.le_of_lt hlength)
  have hsame := h anything isReported_anything
  have hlast : (ends true start E.text.length).find? (fun i => E.isEdge flags (units "$") i) = some E.text.length := by
    rw [ends, if_pos rfl, List.range'_concat, Nat.one_mul, Nat.add_sub_cancel' hstart, List.reverse_append]
    exact List.find?_cons_of_pos ((isEdge_end E.text.length).mpr (Or.inl rfl))
  have hfirst : (ends false start E.text.length).find? (fun i => E.isEdge flags (units "$") i) = some E.text.length :=
    (exec_anything false hstart).symm.trans (hsame.trans ((exec_anything true hstart).trans hlast))
  obtain ⟨-, -, hbefore⟩ := List.find?_range'_eq_some.mp hfirst
  have hnot := hbefore j hj hlength
  rw [(isEdge_end j).mpr (Or.inr ⟨hm, hterminator⟩)] at hnot
  exact nomatch hnot

end Removal

/-- What is said of all regular expressions with these flags is sound just if no line ends. -/
theorem sound_iff (E : Engine) (flags : JsString) (start : ℕ) :
    Sound E flags start ↔ 109 ∉ flags ∨ ∀ j, start ≤ j → E.lineTerminatorAt j = false := by
  constructor
  · intro h
    exact oneLine_of_removalSound h.2
  · intro hline
    exact ⟨repetitionsSound E flags start, removalSound hline⟩

/-- The text `a\nb`, for regular expressions with nothing but `[^]`. -/
def twoLines : Engine where
  text := [97, 10, 98]
  enter _ flags := flags
  character _ node direction i :=
    match node, direction with
    | .CharacterClass _ [], .forward => if i < 3 then [i + 1] else []
    | _, _ => []
  backreference _ _ _ _ _ := []
  wordBoundary _ _ _ := false
  character_leads := by
    intro flags node direction i j hj
    split at hj
    · split_ifs at hj with hi
      · rw [List.mem_singleton.mp hj]
        exact ⟨Nat.le_succ i, fun _ => hi⟩
      · exact absurd hj List.not_mem_nil
    · exact absurd hj List.not_mem_nil
  backreference_leads := by
    intro flags raw captures direction i j hj
    exact absurd hj List.not_mem_nil
  character_any := by
    intro flags i hi
    exact if_pos hi
  character_end := by
    intro flags
    rfl

/-- `/[^]*?$/m` takes `a`, and `/[^]*$/m` all of `a\nb`. -/
theorem removal_takes_more : anything.IsReported .removal ∧
    (twoLines.exec (anything.pattern false) (units "m") 0).map State.index = some 1 ∧
    (twoLines.exec (anything.pattern true) (units "m") 0).map State.index = some 3 ∧
    ¬ Sound twoLines (units "m") 0 := by
  refine ⟨rfl, ?_, ?_, fun h => ?_⟩
  · rw [exec_anything false (Nat.zero_le _)]
    rfl
  · rw [exec_anything true (Nat.zero_le _)]
    rfl
  · rcases oneLine_of_removalSound h.2 with habsent | hnone
    · exact absurd (by decide) habsent
    · exact absurd (hnone 1 (Nat.zero_le 1)) (by decide)

end SonarJavascript.Rules.ReluctantQuantifiers
