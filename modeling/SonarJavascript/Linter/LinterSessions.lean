import SonarJavascript.Linter.LinterWrapper

/-!
# Sessions of the linters

The invariant of a linter is about its keys (one object for a pair, each object for one pair) and about the
configurations of these objects; it is kept by `init` and by `lint`, and so by every step of the server.
-/

namespace SonarJavascript.Linter.Wrapper

open LinterWrapper

variable {V : Type} {world : World V} {options : WrapperOptions V} {inputRules : List (RuleConfig V)}

/-! ### One configuration -/

def Known (world : World V) (inputRules : List (RuleConfig V)) : Prop :=
  ∀ r ∈ inputRules, (world.allRules r.key).isSome = true

/-- The last of the input rules with the key decides on its options. -/
def inputOptions (world : World V) (inputRules : List (RuleConfig V)) (key : String) : Option (List (RuleOption V)) :=
  (inputRules.reverse.find? (·.key = key)).map fun r =>
    extendRuleConfig ((world.allRules key).bind RuleModule.schema) r

/-- The last of the internal rules, which come before the input rules. -/
def internalOptions (world : World V) (key : String) : Option (List (RuleOption V)) :=
  if world.sonarlint then none
  else (world.internalCustomRules.reverse.find? (·.ruleId = key)).map fun r => r.ruleConfig.map .value

def enabledOptions (world : World V) (inputRules : List (RuleConfig V)) (key : String) :
    Option (List (RuleOption V)) :=
  (internalOptions world key).or (inputOptions world inputRules key)

theorem enableRules_cons_eq {r : RuleConfig V} {ruleModule : RuleModule} (h : world.allRules r.key = some ruleModule)
    (rules : String → Option (List (RuleOption V))) : enableRules world (r :: inputRules) rules =
      enableRules world inputRules (Function.update rules r.key (some (extendRuleConfig ruleModule.schema r))) := by
  rw [enableRules, h]

theorem enableRules_cons_error {r : RuleConfig V} (h : world.allRules r.key = none)
    (rules : String → Option (List (RuleOption V))) : enableRules world (r :: inputRules) rules = .error ⟨⟩ := by
  rw [enableRules, h]

theorem inputOptions_cons (r : RuleConfig V) (key : String) : inputOptions world (r :: inputRules) key =
    (inputOptions world inputRules key).or
      (if r.key = key then some (extendRuleConfig ((world.allRules key).bind RuleModule.schema) r) else none) := by
  rw [inputOptions, List.reverse_cons, List.find?_append, inputOptions]
  cases inputRules.reverse.find? (·.key = key) with
  | some last => rfl
  | none => by_cases hkey : r.key = key <;> simp [hkey]

theorem enableRules_of_known (h : Known world inputRules) (rules : String → Option (List (RuleOption V))) :
    enableRules world inputRules rules = .ok fun key => (inputOptions world inputRules key).or (rules key) := by
  induction inputRules generalizing rules with
  | nil => rfl
  | cons r inputRules ih =>
    obtain ⟨hr, hrest⟩ := List.forall_mem_cons.mp h
    obtain ⟨ruleModule, hmodule⟩ := Option.isSome_iff_exists.mp hr
    rw [enableRules_cons_eq hmodule, ih hrest]
    congr 1
    funext key
    rw [inputOptions_cons, Option.or_assoc]
    congr 1
    by_cases hkey : r.key = key
    · subst hkey
      simp [hmodule]
    · rw [if_neg hkey, Function.update_of_ne (Ne.symm hkey), Option.none_or]

theorem enableRules_isOk_iff (rules : String → Option (List (RuleOption V))) :
    (enableRules world inputRules rules).isOk = true ↔ Known world inputRules := by
  constructor
  · intro h
    induction inputRules generalizing rules with
    | nil => exact fun r hr => absurd hr List.not_mem_nil
    | cons r inputRules ih =>
      cases hmodule : world.allRules r.key with
      | none =>
        rw [enableRules_cons_error hmodule] at h
        cases h
      | some ruleModule =>
        rw [enableRules_cons_eq hmodule] at h
        exact List.forall_mem_cons.mpr ⟨by simp [hmodule], ih _ h⟩
  · intro h
    rw [enableRules_of_known h]
    rfl

theorem foldl_internal (internal : List (CustomRule V)) (rules : String → Option (List (RuleOption V))) (key : String) :
    internal.foldl enableInternalCustomRule rules key =
      ((internal.reverse.find? (·.ruleId = key)).map fun r => r.ruleConfig.map .value).or (rules key) := by
  induction internal generalizing rules with
  | nil => rfl
  | cons r internal ih =>
    rw [List.foldl_cons, ih, List.reverse_cons, List.find?_append]
    cases internal.reverse.find? (·.ruleId = key) with
    | some last => rfl
    | none =>
      by_cases hkey : r.ruleId = key
      · subst hkey
        simp [enableInternalCustomRule]
      · rw [enableInternalCustomRule, Function.update_of_ne (Ne.symm hkey)]
        simp [hkey]

/-- The configuration of the options with these rules. -/
def configOf (world : World V) (options : WrapperOptions V) (inputRules : List (RuleConfig V)) : LinterConfig V where
  globals name := (createEnv world options.environments name).or (createGlobals options.globals name)
  rules := enabledOptions world inputRules

theorem createConfigOf_of_known (h : Known world inputRules) :
    createConfigOf world options inputRules = .ok (configOf world options inputRules) := by
  rw [createConfigOf, createLinterConfig, enableRules_of_known h]
  simp only [Except.map, configOf]
  congr 2
  funext key
  rw [enableInternalCustomRules, enabledOptions, internalOptions]
  cases world.sonarlint with
  | true => simp
  | false =>
    simp only [Bool.not_false, if_true, Bool.false_eq_true, if_false]
    rw [foldl_internal, Option.or_none]

theorem createConfigOf_isOk_iff : (createConfigOf world options inputRules).isOk = true ↔ Known world inputRules := by
  constructor
  · intro h
    refine (enableRules_isOk_iff fun _ => none).mp ?_
    rw [createConfigOf, createLinterConfig] at h
    cases hrules : enableRules world inputRules fun _ => none with
    | error e =>
      rw [hrules] at h
      cases h
    | ok rules => rfl
  · intro h
    rw [createConfigOf_of_known h]
    rfl

theorem known_nil : Known world ([] : List (RuleConfig V)) := List.forall_mem_nil _

/-! ### Keys -/

def keyOf (r : RuleConfig V × FileType) : LinterConfigurationKey := ⟨r.1.language.getD .js, r.2⟩

/-- The rules for the language and the file type, in their order. -/
def rulesFor (options : WrapperOptions V) (key : LinterConfigurationKey) : List (RuleConfig V) :=
  ((targets options.inputRules).filter fun r => keyOf r = key).map Prod.fst

/-- Each object stands for one key, and each key has one object at most. -/
structure KeysOk (keys : List (ℕ × LinterConfigurationKey)) (next : ℕ) : Prop where
  old : ∀ r ∈ keys, r.1 < next
  object_unique : ∀ r ∈ keys, ∀ r' ∈ keys, r.1 = r'.1 → r = r'
  key_unique : ∀ r ∈ keys, ∀ r' ∈ keys, r.2 = r'.2 → r = r'

variable {keys : List (ℕ × LinterConfigurationKey)} {next object : ℕ} {key : LinterConfigurationKey}

theorem keysOk_nil : KeysOk [] next :=
  ⟨List.forall_mem_nil _, List.forall_mem_nil _, List.forall_mem_nil _⟩

theorem KeysOk.mono (h : KeysOk keys next) {more : ℕ} (hle : next ≤ more) : KeysOk keys more where
  old r hr := Nat.lt_of_lt_of_le (h.old r hr) hle
  object_unique := h.object_unique
  key_unique := h.key_unique

/-- The two ways of `linterConfigurationKey`. -/
theorem linterConfigurationKey_cases (keys : List (ℕ × LinterConfigurationKey)) (object : ℕ)
    (key : LinterConfigurationKey) :
    (∃ found, (found, key) ∈ keys ∧ linterConfigurationKey keys object key = (found, keys)) ∨
      (∀ found, (found, key) ∉ keys) ∧ linterConfigurationKey keys object key = (object, keys ++ [(object, key)]) := by
  rw [linterConfigurationKey]
  cases hfind : keys.find? (·.2 = key) with
  | some r =>
    have hkey : r.2 = key := by simpa using List.find?_some hfind
    subst hkey
    exact .inl ⟨r.1, List.mem_of_find?_eq_some hfind, rfl⟩
  | none =>
    refine .inr ⟨fun found hmem => ?_, rfl⟩
    simpa using List.find?_eq_none.mp hfind _ hmem

theorem KeysOk.push (h : KeysOk keys next) (hnew : ∀ found, (found, key) ∉ keys) :
    KeysOk (keys ++ [(next, key)]) (next + 1) where
  old r hr := by
    rcases List.mem_append.mp hr with hr | hr
    · exact Nat.lt_succ_of_lt (h.old r hr)
    · rw [List.mem_singleton.mp hr]
      exact Nat.lt_succ_self next
  object_unique r hr r' hr' heq := by
    rcases List.mem_append.mp hr with hr | hr <;> rcases List.mem_append.mp hr' with hr' | hr'
    · exact h.object_unique r hr r' hr' heq
    · rw [List.mem_singleton.mp hr'] at heq
      exact absurd heq (Nat.ne_of_lt (h.old r hr))
    · rw [List.mem_singleton.mp hr] at heq
      exact absurd heq.symm (Nat.ne_of_lt (h.old r' hr'))
    · rw [List.mem_singleton.mp hr, List.mem_singleton.mp hr']
  key_unique r hr r' hr' heq := by
    rcases List.mem_append.mp hr with hr | hr <;> rcases List.mem_append.mp hr' with hr' | hr'
    · exact h.key_unique r hr r' hr' heq
    · obtain rfl := List.mem_singleton.mp hr'
      obtain ⟨found, rfl⟩ : ∃ found, r = (found, key) := ⟨r.1, Prod.ext rfl heq⟩
      exact absurd hr (hnew found)
    · obtain rfl := List.mem_singleton.mp hr
      obtain ⟨found, rfl⟩ : ∃ found, r' = (found, key) := ⟨r'.1, Prod.ext rfl heq.symm⟩
      exact absurd hr' (hnew found)
    · rw [List.mem_singleton.mp hr, List.mem_singleton.mp hr']

/-! ### `init` -/

/-- The loop after some of the rules; it has started with these keys and this new object. -/
structure CollectedOk (keys : List (ℕ × LinterConfigurationKey)) (start : ℕ) (done : List (RuleConfig V × FileType))
    (collected : Collected V) : Prop where
  le : start ≤ collected.next
  keysOk : KeysOk collected.keys collected.next
  fresh : ∀ r ∈ collected.keys, r ∈ keys ∨ start ≤ r.1
  rules : ∀ r ∈ collected.keys, collected.rulesByKey r.1 = (done.filter fun d => keyOf d = r.2).map Prod.fst
  none : ∀ object, object ∉ collected.keys.map Prod.fst → collected.rulesByKey object = []
  covered : ∀ d ∈ done, ∃ object, (object, keyOf d) ∈ collected.keys

theorem CollectedOk.collect {done : List (RuleConfig V × FileType)} {collected : Collected V}
    (h : CollectedOk keys next done collected) (rule : RuleConfig V × FileType) :
    CollectedOk keys next (done ++ [rule]) (LinterWrapper.collect collected rule) := by
  rw [LinterWrapper.collect]
  show CollectedOk keys next (done ++ [rule]) ⟨(linterConfigurationKey collected.keys collected.next (keyOf rule)).2,
    Function.update collected.rulesByKey (linterConfigurationKey collected.keys collected.next (keyOf rule)).1
      (collected.rulesByKey (linterConfigurationKey collected.keys collected.next (keyOf rule)).1 ++ [rule.1]),
    collected.next + 1⟩
  rcases linterConfigurationKey_cases collected.keys collected.next (keyOf rule) with ⟨found, hmem, heq⟩ | ⟨hnew, heq⟩
  · rw [heq]
    refine ⟨Nat.le_succ_of_le h.le, h.keysOk.mono (Nat.le_succ _), h.fresh, fun r hr => ?_, fun object hobject => ?_, fun d hd => ?_⟩
    · by_cases hfound : r.1 = found
      · have hr' := h.keysOk.object_unique r hr (found, keyOf rule) hmem hfound
        subst hr'
        simp [h.rules _ hmem]
      · have hkey : keyOf rule ≠ r.2 := fun hkey => hfound (congrArg Prod.fst (h.keysOk.key_unique r hr _ hmem hkey.symm))
        show Function.update _ _ _ _ = _
        rw [Function.update_of_ne hfound, h.rules r hr]
        simp [hkey]
    · have hne : object ≠ found := fun heq => hobject (heq ▸ List.mem_map_of_mem (f := Prod.fst) hmem)
      show Function.update _ _ _ _ = _
      rw [Function.update_of_ne hne, h.none object hobject]
    · rcases List.mem_append.mp hd with hd | hd
      · exact h.covered d hd
      · rw [List.mem_singleton.mp hd]
        exact ⟨found, hmem⟩
  · rw [heq]
    have hfresh : collected.next ∉ collected.keys.map Prod.fst := fun hmem => by
      obtain ⟨r, hr, hnext⟩ := List.mem_map.mp hmem
      exact absurd hnext (Nat.ne_of_lt (h.keysOk.old r hr))
    refine ⟨Nat.le_succ_of_le h.le, h.keysOk.push hnew, fun r hr => ?_, fun r hr => ?_, fun object hobject => ?_,
      fun d hd => ?_⟩
    · rcases List.mem_append.mp hr with hr | hr
      · exact h.fresh r hr
      · rw [List.mem_singleton.mp hr]
        exact .inr h.le
    · rcases List.mem_append.mp hr with hr | hr
      · have hne : r.1 ≠ collected.next := Nat.ne_of_lt (h.keysOk.old r hr)
        have hkey : keyOf rule ≠ r.2 := fun hkey => hnew r.1 (hkey ▸ hr)
        show Function.update _ _ _ _ = _
        rw [Function.update_of_ne hne, h.rules r hr]
        simp [hkey]
      · rw [List.mem_singleton.mp hr]
        have hdone : done.filter (fun d => keyOf d = keyOf rule) = [] := by
          refine List.filter_eq_nil_iff.mpr fun d hd heq => ?_
          obtain ⟨object, hobject⟩ := h.covered d hd
          exact hnew object (of_decide_eq_true heq ▸ hobject)
        simp [h.none _ hfresh, hdone]
    · simp only [List.map_append, List.mem_append, List.map_cons, List.map_nil, List.mem_singleton, not_or] at hobject
      show Function.update _ _ _ _ = _
      rw [Function.update_of_ne hobject.2, h.none object hobject.1]
    · rcases List.mem_append.mp hd with hd | hd
      · obtain ⟨object, hobject⟩ := h.covered d hd
        exact ⟨object, List.mem_append_left _ hobject⟩
      · rw [List.mem_singleton.mp hd]
        exact ⟨collected.next, List.mem_append_right _ (List.mem_singleton_self _)⟩

theorem collectAll_ok {wrapper : LinterWrapper V} (h : KeysOk wrapper.configurationKeys next) :
    CollectedOk wrapper.configurationKeys next (targets wrapper.options.inputRules) (wrapper.collectAll next) := by
  have hfold : ∀ (rest done : List (RuleConfig V × FileType)) (collected : Collected V),
      CollectedOk wrapper.configurationKeys next done collected →
        CollectedOk wrapper.configurationKeys next (done ++ rest) (rest.foldl LinterWrapper.collect collected) := by
    intro rest
    induction rest with
    | nil => intro done collected hok; simpa using hok
    | cons rule rest ih =>
      intro done collected hok
      have hrest := ih _ _ (hok.collect rule)
      rwa [List.append_assoc, List.singleton_append] at hrest
  exact hfold _ [] _ ⟨Nat.le_refl _, h, fun r hr => .inl hr, fun r hr => rfl, fun _ _ => rfl, List.forall_mem_nil _⟩

/-! ### A linter -/

/-- The rules that a linter is ready for. -/
def readyRules (ready : Prop) (options : WrapperOptions V) (key : LinterConfigurationKey) (rules : List (RuleConfig V)) :
    Prop :=
  (ready → rules = rulesFor options key) ∧ (¬ ready → rules = [])

structure WrapperOk (world : World V) (ready : Prop) (wrapper : LinterWrapper V) (next : ℕ) : Prop where
  keysOk : KeysOk wrapper.configurationKeys next
  known : ready → ∀ key, Known world (rulesFor wrapper.options key)
  old : ∀ object, wrapper.config object ≠ none → object < next
  configured : ∀ object key linterConfig, (object, key) ∈ wrapper.configurationKeys →
    wrapper.config object = some linterConfig →
    ∃ rules, readyRules ready wrapper.options key rules ∧ linterConfig = configOf world wrapper.options rules
  complete : ready → ∀ key, rulesFor wrapper.options key ≠ [] →
    ∃ object, (object, key) ∈ wrapper.configurationKeys ∧ wrapper.config object ≠ none

theorem wrapperOk_new {ready : Prop} (hready : ¬ ready) (options : WrapperOptions V) :
    WrapperOk world ready (.new options) next where
  keysOk := keysOk_nil
  known h := absurd h hready
  old _ h := absurd rfl h
  configured _ _ _ hmem := absurd hmem List.not_mem_nil
  complete h := absurd h hready

theorem WrapperOk.congr {ready ready' : Prop} {wrapper : LinterWrapper V} (h : WrapperOk world ready wrapper next)
    (hiff : ready' ↔ ready) : WrapperOk world ready' wrapper next :=
  propext hiff ▸ h

theorem WrapperOk.mono {ready : Prop} {wrapper : LinterWrapper V} (h : WrapperOk world ready wrapper next) {more : ℕ}
    (hle : next ≤ more) : WrapperOk world ready wrapper more where
  keysOk := h.keysOk.mono hle
  known := h.known
  old object hobject := Nat.lt_of_lt_of_le (h.old object hobject) hle
  configured := h.configured
  complete := h.complete

/-- Every rule with a file type is known. -/
def AllKnown (world : World V) (options : WrapperOptions V) : Prop :=
  Known world ((targets options.inputRules).map Prod.fst)

theorem known_rulesFor (h : AllKnown world options) (key : LinterConfigurationKey) :
    Known world (rulesFor options key) :=
  fun r hr => h r (List.filter_sublist.map Prod.fst |>.subset hr)

theorem wrapperOk_init {ready : Prop} {wrapper : LinterWrapper V} (h : WrapperOk world ready wrapper next)
    (hready : ¬ ready) : WrapperOk world (AllKnown world wrapper.options) (wrapper.init world next).1
      (wrapper.init world next).2 ∧ next ≤ (wrapper.init world next).2 ∧
      (wrapper.init world next).1.options = wrapper.options := by
  have hcollected := collectAll_ok h.keysOk
  have hrules : ∀ object key, (object, key) ∈ (wrapper.collectAll next).keys →
      (wrapper.collectAll next).rulesByKey object = rulesFor wrapper.options key :=
    fun object key hmem => hcollected.rules _ hmem
  have hle := hcollected.le
  have hall : ((wrapper.collectAll next).keys.all fun key =>
      (createConfigOf world wrapper.options ((wrapper.collectAll next).rulesByKey key.1)).isOk) = true ↔
      AllKnown world wrapper.options := by
    rw [List.all_eq_true]
    constructor
    · intro hok r hr
      obtain ⟨d, hd, rfl⟩ := List.mem_map.mp hr
      obtain ⟨object, hobject⟩ := hcollected.covered d hd
      have hknown := createConfigOf_isOk_iff.mp (hok _ hobject)
      rw [hrules _ _ hobject] at hknown
      exact hknown d.1 (List.mem_map_of_mem (List.mem_filter.mpr ⟨hd, by simp⟩))
    · intro hknown r hr
      rw [createConfigOf_isOk_iff, hrules r.1 r.2 hr]
      exact known_rulesFor hknown r.2
  by_cases hknown : AllKnown world wrapper.options
  · rw [init, createConfig, if_pos (hall.mpr hknown)]
    have hconfig : ∀ object key, (object, key) ∈ (wrapper.collectAll next).keys →
        (createConfigOf world wrapper.options ((wrapper.collectAll next).rulesByKey object)).toOption =
          some (configOf world wrapper.options (rulesFor wrapper.options key)) := by
      intro object key hmem
      rw [hrules _ _ hmem, createConfigOf_of_known (known_rulesFor hknown key)]
      rfl
    refine ⟨⟨hcollected.keysOk, fun _ => known_rulesFor hknown, fun object hobject => ?_,
      fun object key linterConfig hmem hsome => ?_, fun _ key hrulesFor => ?_⟩, hle, rfl⟩
    · by_contra hlt
      refine hobject (if_pos (hcollected.none object fun hmem => hlt ?_))
      obtain ⟨r, hr, rfl⟩ := List.mem_map.mp hmem
      exact hcollected.keysOk.old r hr
    · refine ⟨rulesFor wrapper.options key, ⟨fun _ => rfl, fun hnot => absurd hknown hnot⟩, ?_⟩
      dsimp only at hsome
      split_ifs at hsome
      rw [hconfig object key hmem] at hsome
      exact (Option.some.inj hsome).symm
    · obtain ⟨r, hr⟩ := List.exists_mem_of_ne_nil _ hrulesFor
      obtain ⟨d, hd, -⟩ := List.mem_map.mp hr
      obtain ⟨hmem, hkey⟩ := List.mem_filter.mp hd
      obtain ⟨object, hobject⟩ := hcollected.covered d hmem
      rw [of_decide_eq_true hkey] at hobject
      refine ⟨object, hobject, ?_⟩
      dsimp only
      rw [if_neg (by rwa [hrules _ _ hobject]), hconfig _ _ hobject]
      exact Option.some_ne_none _
  · have hinit : wrapper.init world next =
        ({ wrapper with configurationKeys := (wrapper.collectAll next).keys }, (wrapper.collectAll next).next) := by
      rw [init, createConfig, if_neg (fun hok => hknown (hall.mp hok))]
    rw [hinit]
    refine ⟨⟨hcollected.keysOk, fun h => absurd h hknown, fun object hobject => ?_,
      fun object key linterConfig hmem hsome => ?_, fun h => absurd h hknown⟩, hle, rfl⟩
    · exact Nat.lt_of_lt_of_le (h.old object hobject) hle
    · rcases hcollected.fresh _ hmem with hmem | hge
      · obtain ⟨rules, hrules, rfl⟩ := h.configured object key linterConfig hmem hsome
        exact ⟨rules, ⟨fun h => absurd h hknown, fun _ => hrules.2 hready⟩, rfl⟩
      · have hlt := h.old object (hsome ▸ Option.some_ne_none _)
        exact absurd hlt (Nat.not_lt.mpr hge)

/-- The configuration with the internal rules only is kept under a new object. -/
theorem WrapperOk.fallback {ready : Prop} {wrapper : LinterWrapper V} (h : WrapperOk world ready wrapper next)
    (hempty : ready → rulesFor wrapper.options key = []) (hkeys : KeysOk keys (next + 1))
    (hkept : ∀ r ∈ wrapper.configurationKeys, r ∈ keys)
    (honly : ∀ r ∈ keys, r ∈ wrapper.configurationKeys ∨ r = (next, key)) :
    WrapperOk world ready ⟨wrapper.options,
      Function.update wrapper.config next (some (configOf world wrapper.options [])), keys⟩ (next + 1) where
  keysOk := hkeys
  known := h.known
  old object hobject := by
    by_cases hsame : object = next
    · exact hsame ▸ Nat.lt_succ_self next
    · dsimp only at hobject
      rw [Function.update_of_ne hsame] at hobject
      exact Nat.lt_succ_of_lt (h.old object hobject)
  configured object other linterConfig hother hsome := by
    dsimp only at hsome
    rcases honly _ hother with hother | hother
    · rw [Function.update_of_ne (Nat.ne_of_lt (h.keysOk.old _ hother))] at hsome
      exact h.configured object other linterConfig hother hsome
    · obtain ⟨rfl, rfl⟩ := Prod.mk.inj hother
      rw [Function.update_self] at hsome
      exact ⟨[], ⟨fun hready => (hempty hready).symm, fun _ => rfl⟩, (Option.some.inj hsome).symm⟩
  complete hready other hrules := by
    obtain ⟨object, hobject, hsome⟩ := h.complete hready other hrules
    refine ⟨object, hkept _ hobject, ?_⟩
    dsimp only
    rwa [Function.update_of_ne (Nat.ne_of_lt (h.keysOk.old _ hobject))]

/-- A file is linted with what the linter is ready for, and the linter stays so. -/
theorem wrapperOk_lint {ready : Prop} {wrapper : LinterWrapper V} (h : WrapperOk world ready wrapper next)
    (key : LinterConfigurationKey) : ∃ rules wrapper', readyRules ready wrapper.options key rules ∧
      wrapper.lint world next key = .ok (configOf world wrapper.options rules, wrapper') ∧
      WrapperOk world ready wrapper' (next + 1) ∧ wrapper'.options = wrapper.options := by
  have hnil : createConfigOf world wrapper.options [] = .ok (configOf world wrapper.options []) :=
    createConfigOf_of_known known_nil
  rcases linterConfigurationKey_cases wrapper.configurationKeys next key with ⟨found, hmem, heq⟩ | ⟨hnew, heq⟩
  · cases hconfig : wrapper.config found with
    | some linterConfig =>
      obtain ⟨rules, hrules, rfl⟩ := h.configured found key linterConfig hmem hconfig
      refine ⟨rules, wrapper, hrules, ?_, h.mono (Nat.le_succ _), rfl⟩
      rw [lint, heq]
      simp only [hconfig]
    | none =>
      have hempty : ready → rulesFor wrapper.options key = [] := by
        intro hready
        by_contra hne
        obtain ⟨object, hobject, hsome⟩ := h.complete hready key hne
        obtain rfl : object = found := congrArg Prod.fst (h.keysOk.key_unique _ hobject _ hmem rfl)
        exact hsome hconfig
      refine ⟨[], _, ⟨fun hready => (hempty hready).symm, fun _ => rfl⟩, ?_,
        h.fallback hempty (h.keysOk.mono (Nat.le_succ _)) (fun _ hr => hr) (fun _ hr => .inl hr), rfl⟩
      rw [lint, heq]
      simp only [hconfig, hnil]
      rfl
  · have hnext : wrapper.config next = none := by
      by_contra hne
      exact absurd (h.old next hne) (Nat.lt_irrefl next)
    have hempty : ready → rulesFor wrapper.options key = [] := by
      intro hready
      by_contra hne
      obtain ⟨object, hobject, -⟩ := h.complete hready key hne
      exact hnew object hobject
    have honly : ∀ r ∈ wrapper.configurationKeys ++ [(next, key)], r ∈ wrapper.configurationKeys ∨ r = (next, key) :=
      fun r hr => (List.mem_append.mp hr).imp_right List.mem_singleton.mp
    refine ⟨[], _, ⟨fun hready => (hempty hready).symm, fun _ => rfl⟩, ?_,
      h.fallback hempty (h.keysOk.push hnew) (fun _ hr => List.mem_append_left _ hr) honly, rfl⟩
    rw [lint, heq]
    simp only [hnext, hnil]
    rfl

/-! ### The server -/

/-- The options of the last linter that was initialized under the identifier. -/
def lastOptions (linterId : String) : List (Event V) → Option (WrapperOptions V)
  | [] => none
  | .initializeLinter other options :: rest =>
    (lastOptions linterId rest).or (if other = linterId then some options else none)
  | _ :: rest => lastOptions linterId rest

/-- `init` of the linter has come to its end without an exception. -/
def Ready (world : World V) (seen : List (Linters V × Event V)) (object : ℕ) (options : WrapperOptions V) : Prop :=
  .loaded object true ∈ seen.map Prod.snd ∧ AllKnown world options

structure ServerOk (world : World V) (seen : List (Linters V × Event V)) (s : Linters V) : Prop where
  loading : ∀ object ∈ s.loading, object < s.next ∧ .loaded object true ∉ seen.map Prod.snd
  loaded : ∀ object, .loaded object true ∈ seen.map Prod.snd → object < s.next
  wrappers : ∀ object wrapper, s.wrappers object = some wrapper →
    object < s.next ∧ WrapperOk world (Ready world seen object wrapper.options) wrapper s.next
  registered : ∀ linterId object, s.linters linterId = some object → ∃ wrapper, s.wrappers object = some wrapper ∧
    lastOptions linterId (seen.map Prod.snd) = some wrapper.options
  unregistered : ∀ linterId, s.linters linterId = none → lastOptions linterId (seen.map Prod.snd) = none

theorem lastOptions_append (linterId : String) (events : List (Event V)) (event : Event V) :
    lastOptions linterId (events ++ [event]) =
      (lastOptions linterId [event]).or (lastOptions linterId events) := by
  induction events with
  | nil => simp [lastOptions]
  | cons first events ih =>
    cases first with
    | initializeLinter other options =>
      rw [List.cons_append, lastOptions, ih, Option.or_assoc]
      rfl
    | loaded | lint => exact ih

variable {seen : List (Linters V × Event V)} {s s' : Linters V} {event : Event V}

theorem ready_snoc {options : WrapperOptions V} : Ready world (seen ++ [(s, event)]) object options ↔
    Ready world seen object options ∨ event = .loaded object true ∧ AllKnown world options := by
  simp only [Ready, List.map_append, List.map_cons, List.map_nil, List.mem_append, List.mem_singleton]
  constructor
  · rintro ⟨hloaded | rfl, hknown⟩
    · exact .inl ⟨hloaded, hknown⟩
    · exact .inr ⟨rfl, hknown⟩
  · rintro (⟨hloaded, hknown⟩ | ⟨rfl, hknown⟩)
    · exact ⟨.inl hloaded, hknown⟩
    · exact ⟨.inr rfl, hknown⟩

theorem ready_snoc_of_ne {options : WrapperOptions V} (hne : event ≠ .loaded object true) :
    Ready world (seen ++ [(s, event)]) object options ↔ Ready world seen object options := by
  rw [ready_snoc]
  exact or_iff_left fun h => hne h.1

theorem mem_loaded_snoc (hne : event ≠ .loaded object true) :
    .loaded object true ∈ (seen ++ [(s, event)]).map Prod.snd ↔ .loaded object true ∈ seen.map Prod.snd := by
  rw [List.map_append, List.mem_append]
  exact or_iff_left fun h => hne (List.mem_singleton.mp h).symm

theorem lastOptions_snoc (linterId : String) : lastOptions linterId ((seen ++ [(s, event)]).map Prod.snd) =
    (lastOptions linterId [event]).or (lastOptions linterId (seen.map Prod.snd)) := by
  rw [List.map_append]
  exact lastOptions_append linterId _ _

theorem serverOk_start : ServerOk world [] (.start : Linters V) where
  loading _ h := absurd h List.not_mem_nil
  loaded _ h := absurd h List.not_mem_nil
  wrappers _ _ h := absurd h (Option.some_ne_none _).symm
  registered _ _ h := absurd h (Option.some_ne_none _).symm
  unregistered _ _ := rfl

/-- A step that only changes one linter, which keeps its options, and loads no bundle. -/
theorem ServerOk.update (h : ServerOk world seen s) {wrapper wrapper' : LinterWrapper V}
    (hwrapper : s.wrappers object = some wrapper) (hoptions : wrapper'.options = wrapper.options) {more : ℕ}
    {loading : List ℕ} (hle : s.next ≤ more) (hloading : ∀ other ∈ loading, other ∈ s.loading ∧ event ≠ .loaded other true)
    (hloaded : ∀ other, event = .loaded other true → other = object) (hevent : ∀ linterId, lastOptions linterId [event] = none)
    (hok : WrapperOk world (Ready world (seen ++ [(s, event)]) object wrapper'.options) wrapper' more) :
    ServerOk world (seen ++ [(s, event)])
      ⟨more, Function.update s.wrappers object (some wrapper'), s.linters, loading⟩ where
  loading other hother := by
    obtain ⟨hmem, hne⟩ := hloading other hother
    obtain ⟨hlt, hnot⟩ := h.loading other hmem
    exact ⟨Nat.lt_of_lt_of_le hlt hle, fun hmem => hnot ((mem_loaded_snoc hne).mp hmem)⟩
  loaded other hother := by
    by_cases hne : event = .loaded other true
    · rw [hloaded other hne]
      exact Nat.lt_of_lt_of_le (h.wrappers object wrapper hwrapper).1 hle
    · exact Nat.lt_of_lt_of_le (h.loaded other ((mem_loaded_snoc hne).mp hother)) hle
  wrappers other found hfound := by
    dsimp only at hfound
    by_cases hsame : other = object
    · subst hsame
      rw [Function.update_self] at hfound
      obtain rfl := Option.some.inj hfound
      exact ⟨Nat.lt_of_lt_of_le (h.wrappers other wrapper hwrapper).1 hle, hok⟩
    · rw [Function.update_of_ne hsame] at hfound
      obtain ⟨hlt, hfoundOk⟩ := h.wrappers other found hfound
      refine ⟨Nat.lt_of_lt_of_le hlt hle, (hfoundOk.mono hle).congr (ready_snoc_of_ne fun heq => hsame (hloaded other heq))⟩
  registered linterId other hother := by
    rw [lastOptions_snoc, hevent, Option.none_or]
    obtain ⟨found, hfound, hlast⟩ := h.registered linterId other hother
    by_cases hsame : other = object
    · subst hsame
      obtain rfl := Option.some.inj (hwrapper.symm.trans hfound)
      exact ⟨wrapper', Function.update_self .., hoptions ▸ hlast⟩
    · exact ⟨found, (Function.update_of_ne hsame ..).trans hfound, hlast⟩
  unregistered linterId hnone := by
    rw [lastOptions_snoc, hevent, Option.none_or]
    exact h.unregistered linterId hnone

theorem ServerOk.step (h : ServerOk world seen s) (hstep : Step world s event s') :
    ServerOk world (seen ++ [(s, event)]) s' := by
  cases hstep with
  | initializeLinter linterId options =>
    have hne : ∀ other, (.initializeLinter linterId options : Event V) ≠ .loaded other true := fun _ => by simp
    refine ⟨fun other hother => ?_, fun other hother => ?_, fun other found hfound => ?_, fun id other hother => ?_,
      fun id hnone => ?_⟩
    · rw [mem_loaded_snoc (hne other)]
      rcases List.mem_cons.mp hother with rfl | hother
      · exact ⟨Nat.lt_succ_self _, fun hmem => absurd (h.loaded _ hmem) (Nat.lt_irrefl _)⟩
      · exact ⟨Nat.lt_succ_of_lt (h.loading other hother).1, (h.loading other hother).2⟩
    · exact Nat.lt_succ_of_lt (h.loaded other ((mem_loaded_snoc (hne other)).mp hother))
    · dsimp only at hfound
      by_cases hsame : other = s.next
      · subst hsame
        rw [Function.update_self] at hfound
        obtain rfl := Option.some.inj hfound
        refine ⟨Nat.lt_succ_self _, wrapperOk_new (fun hready => ?_) options⟩
        have hloaded := ((ready_snoc_of_ne (hne _)).mp hready).1
        exact absurd (h.loaded _ hloaded) (Nat.lt_irrefl _)
      · rw [Function.update_of_ne hsame] at hfound
        obtain ⟨hlt, hok⟩ := h.wrappers other found hfound
        exact ⟨Nat.lt_succ_of_lt hlt, (hok.mono (Nat.le_succ _)).congr (ready_snoc_of_ne (hne other))⟩
    · rw [lastOptions_snoc]
      dsimp only at hother ⊢
      by_cases hid : id = linterId
      · subst hid
        rw [Function.update_self] at hother
        obtain rfl := Option.some.inj hother
        exact ⟨.new options, Function.update_self .., by simp [lastOptions, LinterWrapper.new]⟩
      · rw [Function.update_of_ne hid] at hother
        obtain ⟨found, hfound, hlast⟩ := h.registered id other hother
        have hlt := (h.wrappers other found hfound).1
        refine ⟨found, (Function.update_of_ne (Nat.ne_of_lt hlt) ..).trans hfound, ?_⟩
        simpa [lastOptions, Ne.symm hid] using hlast
    · dsimp only at hnone
      by_cases hid : id = linterId
      · subst hid
        simp at hnone
      · rw [Function.update_of_ne hid] at hnone
        rw [lastOptions_snoc, h.unregistered id hnone]
        simp [lastOptions, Ne.symm hid]
  | @init object wrapper hloading hwrapper =>
    obtain ⟨hlt, hnot⟩ := h.loading _ hloading
    obtain ⟨-, hok⟩ := h.wrappers _ _ hwrapper
    obtain ⟨hinit, hle, hoptions⟩ := wrapperOk_init hok fun hready => hnot hready.1
    refine h.update hwrapper hoptions hle (fun other hother => ?_) (fun other heq => ?_) (fun _ => rfl) (hinit.congr ?_)
    · obtain ⟨hmem, hne⟩ := List.mem_filter.mp hother
      refine ⟨hmem, fun heq => ?_⟩
      simp only [Event.loaded.injEq, and_true] at heq
      simp [heq] at hne
    · simp only [Event.loaded.injEq, and_true] at heq
      exact heq.symm
    · rw [hoptions, ready_snoc]
      exact ⟨fun hready => hready.elim (fun hready => absurd hready.1 hnot) And.right, fun hknown => .inr ⟨rfl, hknown⟩⟩
  | @loadFails object hloading =>
    have hne : ∀ other, (.loaded object false : Event V) ≠ .loaded other true := fun _ => by simp
    refine ⟨fun other hother => ?_, fun other hother => ?_, fun other found hfound => ?_, fun id other hother => ?_,
      fun id hnone => ?_⟩
    · rw [mem_loaded_snoc (hne other)]
      exact h.loading other (List.mem_of_mem_filter hother)
    · exact h.loaded other ((mem_loaded_snoc (hne other)).mp hother)
    · obtain ⟨hlt, hok⟩ := h.wrappers other found hfound
      exact ⟨hlt, hok.congr (ready_snoc_of_ne (hne other))⟩
    · rw [lastOptions_snoc]
      exact h.registered id other hother
    · rw [lastOptions_snoc]
      exact h.unregistered id hnone
  | lint hlinter hwrapper hlint =>
    obtain ⟨-, hok⟩ := h.wrappers _ _ hwrapper
    obtain ⟨rules, wrapper', -, heq, hok', hoptions⟩ := wrapperOk_lint hok _
    obtain ⟨-, rfl⟩ := Prod.mk.inj (Except.ok.inj (hlint.symm.trans heq))
    refine h.update hwrapper hoptions (Nat.le_succ _) (fun other hother => ⟨hother, by simp⟩) (fun other heq => ?_)
      (fun _ => rfl) (hok'.congr ?_)
    · simp at heq
    · rw [hoptions]
      exact ready_snoc_of_ne (by simp)
  | noLinter =>
    refine ⟨fun other hother => ?_, fun other hother => ?_, fun other found hfound => ?_, fun id other hother => ?_,
      fun id hnone => ?_⟩
    · rw [mem_loaded_snoc (by simp)]
      exact h.loading other hother
    · exact h.loaded other ((mem_loaded_snoc (by simp)).mp hother)
    · obtain ⟨hlt, hok⟩ := h.wrappers other found hfound
      exact ⟨hlt, hok.congr (ready_snoc_of_ne (by simp))⟩
    · rw [lastOptions_snoc]
      exact h.registered id other hother
    · rw [lastOptions_snoc]
      exact h.unregistered id hnone

theorem serverOk_run {trace : List (Linters V × Event V)} (hrun : Run (Step world) .start trace s) :
    ServerOk world trace s :=
  hrun.induction_seen (ServerOk world) (fun _ _ => True) [] serverOk_start (fun _ _ _ _ h hstep _ => h.step hstep)
    (by simp)

theorem lint_uses {trace : List (Linters V × Event V)} (hrun : Run (Step world) .start trace s) (linterId : String) :
    (s.linters linterId = none ∧ lastOptions linterId (trace.map Prod.snd) = none) ∨
    ∃ object wrapper, s.linters linterId = some object ∧ s.wrappers object = some wrapper ∧
      lastOptions linterId (trace.map Prod.snd) = some wrapper.options ∧ ∀ key, ∃ rules wrapper',
        readyRules (Ready world trace object wrapper.options) wrapper.options key rules ∧
        wrapper.lint world s.next key = .ok (configOf world wrapper.options rules, wrapper') := by
  have hok := serverOk_run hrun
  cases hlinter : s.linters linterId with
  | none => exact .inl ⟨rfl, hok.unregistered linterId hlinter⟩
  | some object =>
    obtain ⟨wrapper, hwrapper, hlast⟩ := hok.registered linterId object hlinter
    refine .inr ⟨object, wrapper, rfl, hwrapper, hlast, fun key => ?_⟩
    obtain ⟨rules, wrapper', hrules, hlint, -, -⟩ := wrapperOk_lint (hok.wrappers object wrapper hwrapper).2 key
    exact ⟨rules, wrapper', hrules, hlint⟩

/-- A rule that asks for the runtime. -/
def oneRule : World ℕ where
  allRules key := if key = "S107" then some ⟨some (.list [⟨some ["sonar-runtime"], none⟩])⟩ else none
  internalCustomRules := []
  globals _ := none
  sonarlint := false

def maxParameters : RuleConfig ℕ := ⟨"S107", [7], [.MAIN], some .ts⟩

def profile : WrapperOptions ℕ := ⟨[maxParameters], [], []⟩

def loadingProfile : Linters ℕ :=
  ⟨1, Function.update (fun _ => none) 0 (some (.new profile)), Function.update (fun _ => none) "default" (some 0), [0]⟩

theorem lint_uses_profile : ∃ s wrapper wrapper',
    Run (Step oneRule) .start [(.start, .initializeLinter "default" profile), (loadingProfile, .loaded 0 true)] s ∧
      s.wrappers 0 = some wrapper ∧
      wrapper.lint oneRule s.next ⟨.ts, .MAIN⟩ = .ok (configOf oneRule profile [maxParameters], wrapper') ∧
      (configOf oneRule profile [maxParameters]).rules "S107" = some [.value 7, .sonarRuntime] := by
  have hfirst : Step oneRule .start (.initializeLinter "default" profile) loadingProfile := .initializeLinter _ _
  have hrun := Run.cons hfirst (.cons (.init (List.mem_singleton_self 0) rfl) (.nil _))
  obtain ⟨-, hnone⟩ | ⟨object, wrapper, hobject, hwrapper, hlast, huses⟩ := lint_uses hrun "default"
  · cases hnone
  · obtain rfl : 0 = object := Option.some.inj hobject
    have hprofile : profile = wrapper.options := Option.some.inj hlast
    obtain ⟨rules, wrapper', ⟨hrules, -⟩, hlint⟩ := huses ⟨.ts, .MAIN⟩
    rw [← hprofile] at hrules hlint
    have hknown : AllKnown oneRule profile := fun r hr => by
      obtain rfl : r = maxParameters := List.mem_singleton.mp hr
      rfl
    obtain rfl := hrules ⟨List.mem_cons_of_mem _ List.mem_cons_self, hknown⟩
    exact ⟨_, wrapper, wrapper', hrun, hwrapper, hlint, rfl⟩

end SonarJavascript.Linter.Wrapper
