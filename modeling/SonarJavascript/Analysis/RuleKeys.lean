import SonarJavascript.Linter.LinterSessions

/-!
# Rules of the plugin in the linter

`JsTsChecks` collects the active checks of each language and repository. `eslintRules` gives them to the linter, each with
its language and file types, and `ruleKeyByEslintKey` brings an issue back to its rule.

`linted_rules`: when the linter of a sensor is ready, a file is linted with the rules of exactly the checks that are active
for its language and file type (and, of an unchanged file, with the first `ucfg` rule only, if it is for them); and each of
these rules has a rule key for the language of the file, so that no issue of it is dropped.
-/

namespace SonarJavascript.Analysis.RuleKeys

open Linter.Wrapper

/-! ### The checks -/

structure RuleKey where
  repository : String
  rule : String

/-- An active check; one that is not based on ESLint has no key. -/
structure Check (V : Type) where
  ruleKey : RuleKey
  eslintKey : Option String
  configurations : List V
  targets : List FileType

structure LanguageAndRepository where
  language : JsTsLanguage
  repository : String
  deriving DecidableEq

/-- The checks of a repository that are active. -/
structure CustomRuleRepository (V : Type) where
  languages : List JsTsLanguage
  repositoryKey : String
  checks : List (Check V)

/-- The two hash maps. -/
structure JsTsChecks (V : Type) where
  checks : List (LanguageAndRepository × List (Check V))
  eslintKeyToRuleKey : String → JsTsLanguage → Option RuleKey

variable {V : Type}

namespace JsTsChecks

/-- The checks under a key replace the ones that are there. -/
def put (checks : List (LanguageAndRepository × List (Check V))) (key : LanguageAndRepository) (chks : List (Check V)) :
    List (LanguageAndRepository × List (Check V)) :=
  checks.filter (·.1 ≠ key) ++ [(key, chks)]

def putRuleKey (language : JsTsLanguage) (keys : String → JsTsLanguage → Option RuleKey) (check : Check V) :
    String → JsTsLanguage → Option RuleKey :=
  match check.eslintKey with
  | none => keys
  | some eslintKey =>
    Function.update keys eslintKey (Function.update (keys eslintKey) language (some check.ruleKey))

def doAddChecks (s : JsTsChecks V) (language : JsTsLanguage) (repositoryKey : String) (chks : List (Check V)) :
    JsTsChecks V where
  checks := put s.checks ⟨language, repositoryKey⟩ chks
  eslintKeyToRuleKey := chks.foldl (putRuleKey language) s.eslintKeyToRuleKey

def addCustomChecks (s : JsTsChecks V) (language : JsTsLanguage) (repositories : List (CustomRuleRepository V)) :
    JsTsChecks V :=
  repositories.foldl (fun s repo =>
    if language ∈ repo.languages then s.doAddChecks language repo.repositoryKey repo.checks else s) s

def TS_REPOSITORY_KEY : String := "typescript"

def JS_REPOSITORY_KEY : String := "javascript"

def create (typeScriptChecks javaScriptChecks : List (Check V)) (repositories : List (CustomRuleRepository V)) :
    JsTsChecks V :=
  (((⟨[], fun _ _ => none⟩ : JsTsChecks V).doAddChecks .ts TS_REPOSITORY_KEY typeScriptChecks).addCustomChecks .ts
    repositories |>.doAddChecks .js JS_REPOSITORY_KEY javaScriptChecks).addCustomChecks .js repositories

def ruleKeyByEslintKey (s : JsTsChecks V) (eslintKey : String) (language : JsTsLanguage) : Option RuleKey :=
  s.eslintKeyToRuleKey eslintKey language

/-- The rules in the order in which the hash map has its entries. -/
def eslintRules (order : List (LanguageAndRepository × List (Check V))) : List (RuleConfig V) :=
  order.flatMap fun e => e.2.filterMap fun check => check.eslintKey.map fun eslintKey =>
    ⟨eslintKey, check.configurations, check.targets, some e.1.language⟩

end JsTsChecks

/-! ### The linters of a sensor -/

inductive AnalysisMode
  | DEFAULT | SKIP_UNCHANGED

namespace AnalysisMode

def DEFAULT_LINTER_ID : String := "default"

def UNCHANGED_LINTER_ID : String := "unchanged"

def UCFG_ESLINT_KEY : String := "ucfg"

def getMode (canSkipUnchangedFiles hasSecurityRules : Bool) : AnalysisMode :=
  if !canSkipUnchangedFiles then .DEFAULT else if !hasSecurityRules then .DEFAULT else .SKIP_UNCHANGED

def getUnchangedFileRules (rules : List (RuleConfig V)) : List (RuleConfig V) :=
  match rules.find? (·.key = UCFG_ESLINT_KEY) with
  | none => []
  | some rule => [rule]

def getHtmlFileRules (rules : List (RuleConfig V)) : List (RuleConfig V) := rules.filter (·.key ∉ ["S3504", "ucfg"])

/-- For a file with status `SAME`, or with another one. -/
def getLinterIdFor (mode : AnalysisMode) (same : Bool) : String :=
  match mode with
  | .SKIP_UNCHANGED => if same then UNCHANGED_LINTER_ID else DEFAULT_LINTER_ID
  | .DEFAULT => DEFAULT_LINTER_ID

end AnalysisMode

/-- The sensors that lint JavaScript or TypeScript. -/
inductive Sensor
  | JsTs | Html | Yaml

/-- A file as the sensors see it; its language says whether it is a TypeScript file. -/
structure InputFile where
  language : JsTsLanguage
  type : FileType
  same : Bool

namespace Sensor

def rules (sensor : Sensor) (order : List (LanguageAndRepository × List (Check V))) : List (RuleConfig V) :=
  match sensor with
  | .Html => AnalysisMode.getHtmlFileRules (JsTsChecks.eslintRules order)
  | .JsTs | .Yaml => JsTsChecks.eslintRules order

/-- What `initLinter` sends, with the identifiers. -/
def initLinter (mode : AnalysisMode) (rules : List (RuleConfig V)) : List (String × List (RuleConfig V)) :=
  (AnalysisMode.DEFAULT_LINTER_ID, rules) ::
    match mode with
    | .DEFAULT => []
    | .SKIP_UNCHANGED => [(AnalysisMode.UNCHANGED_LINTER_ID, AnalysisMode.getUnchangedFileRules rules)]

/-- Language and file type that the linter gets: embedded snippets are linted as main files in JavaScript. -/
def lintKey (sensor : Sensor) (file : InputFile) : LinterConfigurationKey :=
  match sensor with
  | .JsTs => ⟨file.language, file.type⟩
  | .Html | .Yaml => ⟨.js, .MAIN⟩

end Sensor

/-! ### Keys of rules -/

section Keys

variable {keys : String → JsTsLanguage → Option RuleKey} {language other : JsTsLanguage} {chks : List (Check V)}
  {eslintKey : String} {ruleKey : RuleKey}

theorem putRuleKey_eq_some {check : Check V} (h : JsTsChecks.putRuleKey language keys check eslintKey other = some ruleKey) :
    keys eslintKey other = some ruleKey ∨ other = language ∧ check.eslintKey = some eslintKey ∧ check.ruleKey = ruleKey := by
  unfold JsTsChecks.putRuleKey at h
  cases hkey : check.eslintKey with
  | none =>
    rw [hkey] at h
    exact .inl h
  | some found =>
    rw [hkey] at h
    dsimp only at h
    by_cases hfound : eslintKey = found
    · subst hfound
      rw [Function.update_self] at h
      by_cases hlanguage : other = language
      · subst hlanguage
        rw [Function.update_self] at h
        exact .inr ⟨rfl, rfl, Option.some.inj h⟩
      · rw [Function.update_of_ne hlanguage] at h
        exact .inl h
    · rw [Function.update_of_ne hfound] at h
      exact .inl h

theorem putRuleKey_isSome {check : Check V} (h : (keys eslintKey other).isSome = true ∨
    other = language ∧ check.eslintKey = some eslintKey) :
    (JsTsChecks.putRuleKey language keys check eslintKey other).isSome = true := by
  unfold JsTsChecks.putRuleKey
  cases hkey : check.eslintKey with
  | none => simpa [hkey] using h
  | some found =>
    dsimp only
    by_cases hfound : eslintKey = found
    · subst hfound
      rw [Function.update_self]
      by_cases hlanguage : other = language
      · subst hlanguage
        rw [Function.update_self]
        rfl
      · rw [Function.update_of_ne hlanguage]
        exact h.resolve_right fun h => hlanguage h.1
    · rw [Function.update_of_ne hfound]
      exact h.resolve_right fun h => hfound (Option.some.inj (h.2.symm.trans hkey))

theorem foldl_putRuleKey_eq_some (h : chks.foldl (JsTsChecks.putRuleKey language) keys eslintKey other = some ruleKey) :
    keys eslintKey other = some ruleKey ∨
      other = language ∧ ∃ check ∈ chks, check.eslintKey = some eslintKey ∧ check.ruleKey = ruleKey := by
  induction chks generalizing keys with
  | nil => exact .inl h
  | cons check chks ih =>
    rcases ih h with h | ⟨hlanguage, found, hfound, hkeys⟩
    · exact (putRuleKey_eq_some h).imp_right fun ⟨hlanguage, hkeys⟩ => ⟨hlanguage, check, List.mem_cons_self, hkeys⟩
    · exact .inr ⟨hlanguage, found, List.mem_cons_of_mem _ hfound, hkeys⟩

theorem foldl_putRuleKey_isSome (h : (keys eslintKey other).isSome = true ∨
    other = language ∧ ∃ check ∈ chks, check.eslintKey = some eslintKey) :
    (chks.foldl (JsTsChecks.putRuleKey language) keys eslintKey other).isSome = true := by
  induction chks generalizing keys with
  | nil => exact h.resolve_right fun ⟨_, _, hmem, _⟩ => absurd hmem List.not_mem_nil
  | cons check chks ih =>
    refine ih ?_
    rcases h with h | ⟨hlanguage, found, hmem, hkey⟩
    · exact .inl (putRuleKey_isSome (.inl h))
    · rcases List.mem_cons.mp hmem with rfl | hmem
      · exact .inl (putRuleKey_isSome (.inr ⟨hlanguage, hkey⟩))
      · exact .inr ⟨hlanguage, found, hmem, hkey⟩

end Keys

/-! ### All checks -/

/-- The checks that are active for a language, those of other plugins included. -/
def activeFor (typeScriptChecks javaScriptChecks : List (Check V)) (repositories : List (CustomRuleRepository V))
    (language : JsTsLanguage) : List (Check V) :=
  (match language with
    | .ts => typeScriptChecks
    | .js => javaScriptChecks) ++
    (repositories.filter fun repo => language ∈ repo.languages).flatMap CustomRuleRepository.checks

/-- Each check is active, has a rule key, and each rule key is of an active check. -/
structure Keyed (active : JsTsLanguage → List (Check V)) (s : JsTsChecks V) : Prop where
  fromActive : ∀ e ∈ s.checks, ∀ check ∈ e.2, check ∈ active e.1.language
  found : ∀ e ∈ s.checks, ∀ check ∈ e.2, ∀ eslintKey, check.eslintKey = some eslintKey →
    (s.ruleKeyByEslintKey eslintKey e.1.language).isSome = true
  origin : ∀ eslintKey language ruleKey, s.ruleKeyByEslintKey eslintKey language = some ruleKey →
    ∃ check ∈ active language, check.eslintKey = some eslintKey ∧ check.ruleKey = ruleKey

variable {active : JsTsLanguage → List (Check V)} {s : JsTsChecks V}

theorem Keyed.doAddChecks (h : Keyed active s) (language : JsTsLanguage) (repositoryKey : String) {chks : List (Check V)}
    (hactive : ∀ check ∈ chks, check ∈ active language) : Keyed active (s.doAddChecks language repositoryKey chks) where
  fromActive e he check hcheck := by
    rcases List.mem_append.mp he with he | he
    · exact h.fromActive e (List.mem_of_mem_filter he) check hcheck
    · obtain rfl := List.mem_singleton.mp he
      exact hactive check hcheck
  found e he check hcheck eslintKey hkey := by
    refine foldl_putRuleKey_isSome ?_
    rcases List.mem_append.mp he with he | he
    · exact .inl (h.found e (List.mem_of_mem_filter he) check hcheck eslintKey hkey)
    · obtain rfl := List.mem_singleton.mp he
      exact .inr ⟨rfl, check, hcheck, hkey⟩
  origin eslintKey other ruleKey hfound := by
    rcases foldl_putRuleKey_eq_some hfound with hfound | ⟨rfl, check, hcheck, hkeys⟩
    · exact h.origin eslintKey other ruleKey hfound
    · exact ⟨check, hactive check hcheck, hkeys⟩

theorem Keyed.addCustomChecks (h : Keyed active s) (language : JsTsLanguage) {repositories : List (CustomRuleRepository V)}
    (hactive : ∀ repo ∈ repositories, language ∈ repo.languages → ∀ check ∈ repo.checks, check ∈ active language) :
    Keyed active (s.addCustomChecks language repositories) := by
  unfold JsTsChecks.addCustomChecks
  induction repositories generalizing s with
  | nil => exact h
  | cons repo repositories ih =>
    obtain ⟨hfirst, hrest⟩ := List.forall_mem_cons.mp hactive
    refine ih ?_ hrest
    dsimp only
    split_ifs with hlanguage
    · exact h.doAddChecks language repo.repositoryKey (hfirst hlanguage)
    · exact h

variable {typeScriptChecks javaScriptChecks : List (Check V)} {repositories : List (CustomRuleRepository V)}

theorem keyed_create : Keyed (activeFor typeScriptChecks javaScriptChecks repositories)
    (JsTsChecks.create typeScriptChecks javaScriptChecks repositories) := by
  have hcustom : ∀ language, ∀ repo ∈ repositories, language ∈ repo.languages → ∀ check ∈ repo.checks,
      check ∈ activeFor typeScriptChecks javaScriptChecks repositories language :=
    fun language repo hrepo hlanguage check hcheck => List.mem_append_right _ (List.mem_flatMap.mpr
      ⟨repo, List.mem_filter.mpr ⟨hrepo, by simpa using hlanguage⟩, hcheck⟩)
  have hnew : Keyed (activeFor typeScriptChecks javaScriptChecks repositories) (⟨[], fun _ _ => none⟩ : JsTsChecks V) :=
    ⟨List.forall_mem_nil _, List.forall_mem_nil _, fun _ _ _ h => absurd h (Option.some_ne_none _).symm⟩
  have hts := (@Keyed.doAddChecks V _ _ hnew .ts JsTsChecks.TS_REPOSITORY_KEY typeScriptChecks
    fun check hcheck => List.mem_append_left _ hcheck).addCustomChecks .ts (hcustom .ts)
  exact (@Keyed.doAddChecks V _ _ hts .js JsTsChecks.JS_REPOSITORY_KEY javaScriptChecks
    fun check hcheck => List.mem_append_left _ hcheck).addCustomChecks .js (hcustom .js)

/-! ### The rules of a file -/

variable {order : List (LanguageAndRepository × List (Check V))} {rule : RuleConfig V} {eslintKey : String}

theorem mem_eslintRules : rule ∈ JsTsChecks.eslintRules order ↔ ∃ e ∈ order, ∃ check ∈ e.2, ∃ eslintKey,
    check.eslintKey = some eslintKey ∧ rule = ⟨eslintKey, check.configurations, check.targets, some e.1.language⟩ := by
  simp only [JsTsChecks.eslintRules, List.mem_flatMap, List.mem_filterMap, Option.map_eq_some_iff]
  constructor
  · rintro ⟨e, he, check, hcheck, eslintKey, hkey, rfl⟩
    exact ⟨e, he, check, hcheck, eslintKey, hkey, rfl⟩
  · rintro ⟨e, he, check, hcheck, eslintKey, hkey, rfl⟩
    exact ⟨e, he, check, hcheck, eslintKey, hkey, rfl⟩

theorem mem_rulesFor {options : WrapperOptions V} {key : LinterConfigurationKey} : rule ∈ rulesFor options key ↔
    rule ∈ options.inputRules ∧ rule.language.getD .js = key.language ∧ key.fileType ∈ rule.fileTypeTarget := by
  obtain ⟨language, fileType⟩ := key
  simp only [rulesFor, LinterWrapper.targets, List.mem_map, List.mem_filter, List.mem_flatMap, keyOf, decide_eq_true_eq,
    LinterConfigurationKey.mk.injEq]
  constructor
  · rintro ⟨_, ⟨⟨r, hr, target, htarget, rfl⟩, hlanguage, rfl⟩, rfl⟩
    exact ⟨hr, hlanguage, htarget⟩
  · rintro ⟨hr, hlanguage, htarget⟩
    exact ⟨(rule, fileType), ⟨⟨rule, hr, fileType, htarget, rfl⟩, hlanguage, rfl⟩, rfl⟩

variable {world : World V}

theorem inputOptions_isSome {rules : List (RuleConfig V)} :
    (inputOptions world rules eslintKey).isSome = true ↔ ∃ rule ∈ rules, rule.key = eslintKey := by
  rw [inputOptions, Option.isSome_map, List.find?_isSome]
  simp

/-- A check for the language and the file type is active, in a repository whose checks have not been replaced. -/
def Active (sensor : Sensor) (order : List (LanguageAndRepository × List (Check V))) (key : LinterConfigurationKey)
    (eslintKey : String) : Prop :=
  (sensor = .Html → eslintKey ∉ ["S3504", "ucfg"]) ∧ ∃ e ∈ order, e.1.language = key.language ∧
    ∃ check ∈ e.2, check.eslintKey = some eslintKey ∧ key.fileType ∈ check.targets

/-- The first `ucfg` rule of all is for the language and the file type. -/
def FirstUcfg (sensor : Sensor) (order : List (LanguageAndRepository × List (Check V))) (key : LinterConfigurationKey)
    (eslintKey : String) : Prop :=
  eslintKey = AnalysisMode.UCFG_ESLINT_KEY ∧ ∃ rule,
    (sensor.rules order).find? (·.key = AnalysisMode.UCFG_ESLINT_KEY) = some rule ∧
      rule.language = some key.language ∧ key.fileType ∈ rule.fileTypeTarget

theorem mem_rules {sensor : Sensor} : rule ∈ sensor.rules order ↔
    rule ∈ JsTsChecks.eslintRules order ∧ (sensor = .Html → rule.key ∉ ["S3504", "ucfg"]) := by
  cases sensor with
  | Html =>
    rw [Sensor.rules, AnalysisMode.getHtmlFileRules, List.mem_filter, decide_eq_true_eq]
    simp
  | JsTs | Yaml => simp [Sensor.rules]

theorem language_eq (h : rule ∈ JsTsChecks.eslintRules order) {language : JsTsLanguage} :
    rule.language.getD .js = language ↔ rule.language = some language := by
  obtain ⟨e, -, check, -, eslintKey, -, rfl⟩ := mem_eslintRules.mp h
  simp

variable {sensor : Sensor} {key : LinterConfigurationKey}

theorem active_iff : (∃ rule ∈ sensor.rules order, rule.language.getD .js = key.language ∧
    key.fileType ∈ rule.fileTypeTarget ∧ rule.key = eslintKey) ↔ Active sensor order key eslintKey := by
  constructor
  · rintro ⟨rule, hrule, hlanguage, htarget, rfl⟩
    obtain ⟨hmem, hhtml⟩ := mem_rules.mp hrule
    obtain ⟨e, he, check, hcheck, eslintKey, hkey, rfl⟩ := mem_eslintRules.mp hmem
    exact ⟨hhtml, e, he, hlanguage, check, hcheck, hkey, htarget⟩
  · rintro ⟨hhtml, e, he, hlanguage, check, hcheck, hkey, htarget⟩
    refine ⟨_, mem_rules.mpr ⟨mem_eslintRules.mpr ⟨e, he, check, hcheck, eslintKey, hkey, rfl⟩, hhtml⟩, hlanguage,
      htarget, rfl⟩

theorem firstUcfg_iff : (∃ rule ∈ AnalysisMode.getUnchangedFileRules (sensor.rules order),
    rule.language.getD .js = key.language ∧ key.fileType ∈ rule.fileTypeTarget ∧ rule.key = eslintKey) ↔
      FirstUcfg sensor order key eslintKey := by
  rw [AnalysisMode.getUnchangedFileRules, FirstUcfg]
  cases hfind : (sensor.rules order).find? (·.key = AnalysisMode.UCFG_ESLINT_KEY) with
  | none => simp
  | some rule =>
    have hucfg : rule.key = AnalysisMode.UCFG_ESLINT_KEY := by simpa using List.find?_some hfind
    have hmem := (mem_rules.mp (List.mem_of_find?_eq_some hfind)).1
    simp only [List.mem_singleton, exists_eq_left, Option.some.injEq, exists_eq_left']
    rw [language_eq hmem, hucfg]
    constructor
    · rintro ⟨hlanguage, htarget, heq⟩
      exact ⟨heq.symm, hlanguage, htarget⟩
    · rintro ⟨heq, hlanguage, htarget⟩
      exact ⟨hlanguage, htarget, heq.symm⟩

theorem Active.of_firstUcfg (h : FirstUcfg sensor order key eslintKey) : Active sensor order key eslintKey := by
  obtain ⟨rule, hrule, hrest⟩ := firstUcfg_iff.mpr h
  refine active_iff.mp ⟨rule, ?_, hrest⟩
  rw [AnalysisMode.getUnchangedFileRules] at hrule
  cases hfind : (sensor.rules order).find? (·.key = AnalysisMode.UCFG_ESLINT_KEY) with
  | none =>
    rw [hfind] at hrule
    exact absurd hrule List.not_mem_nil
  | some first =>
    rw [hfind] at hrule
    exact List.mem_singleton.mp hrule ▸ List.mem_of_find?_eq_some hfind

theorem enabledOptions_isSome {options : WrapperOptions V} (hinternal : internalOptions world eslintKey = none) :
    (enabledOptions world (rulesFor options key) eslintKey).isSome = true ↔ ∃ rule ∈ options.inputRules,
      rule.language.getD .js = key.language ∧ key.fileType ∈ rule.fileTypeTarget ∧ rule.key = eslintKey := by
  rw [enabledOptions, hinternal, Option.none_or, inputOptions_isSome]
  simp only [mem_rulesFor, and_assoc]

theorem lintKey_language {file : InputFile} (hfile : sensor ≠ .JsTs → file.language = .js) :
    (sensor.lintKey file).language = file.language := by
  cases sensor with
  | JsTs => rfl
  | Html | Yaml => exact (hfile (by simp)).symm

theorem initLinter_cases {mode : AnalysisMode} {rules sent : List (RuleConfig V)} {linterId : String}
    (h : (linterId, sent) ∈ Sensor.initLinter mode rules) :
    (linterId = AnalysisMode.DEFAULT_LINTER_ID ∧ sent = rules) ∨
      (linterId = AnalysisMode.UNCHANGED_LINTER_ID ∧ sent = AnalysisMode.getUnchangedFileRules rules) := by
  rcases List.mem_cons.mp h with heq | hrest
  · exact .inl (Prod.mk.inj heq)
  · cases mode with
    | DEFAULT => exact absurd hrest List.not_mem_nil
    | SKIP_UNCHANGED => exact .inr (Prod.mk.inj (List.mem_singleton.mp hrest))

variable {trace : List (Linters V × Event V)} {state : Linters V} {object : ℕ}

theorem linted_rules (hrun : Run (Step world) .start trace state)
    (horder : order.Perm (JsTsChecks.create typeScriptChecks javaScriptChecks repositories).checks)
    {mode : AnalysisMode} {file : InputFile} (hfile : sensor ≠ .JsTs → file.language = .js)
    {rules : List (RuleConfig V)} {environments globals : List String}
    (hsent : (mode.getLinterIdFor file.same, rules) ∈ Sensor.initLinter mode (sensor.rules order))
    (hlast : lastOptions (mode.getLinterIdFor file.same) (trace.map Prod.snd) = some ⟨rules, environments, globals⟩)
    (hobject : state.linters (mode.getLinterIdFor file.same) = some object)
    (hready : Ready world trace object ⟨rules, environments, globals⟩) :
    ∃ wrapper linterConfig wrapper', state.wrappers object = some wrapper ∧
      wrapper.lint world state.next (sensor.lintKey file) = .ok (linterConfig, wrapper') ∧
      ∀ eslintKey, internalOptions world eslintKey = none →
        ((linterConfig.rules eslintKey).isSome = true ↔
          if mode.getLinterIdFor file.same = AnalysisMode.UNCHANGED_LINTER_ID then
            FirstUcfg sensor order (sensor.lintKey file) eslintKey
          else Active sensor order (sensor.lintKey file) eslintKey) ∧
        ((linterConfig.rules eslintKey).isSome = true → ∃ ruleKey,
          (JsTsChecks.create typeScriptChecks javaScriptChecks repositories).ruleKeyByEslintKey eslintKey file.language =
            some ruleKey ∧
          ∃ check ∈ activeFor typeScriptChecks javaScriptChecks repositories file.language,
            check.eslintKey = some eslintKey ∧ check.ruleKey = ruleKey) := by
  have hok := serverOk_run hrun
  obtain ⟨wrapper, hwrapper, hoptions⟩ := hok.registered _ object hobject
  have hsame : ⟨rules, environments, globals⟩ = wrapper.options := Option.some.inj (hlast.symm.trans hoptions)
  obtain ⟨used, wrapper', hused, hlint, -, -⟩ := wrapperOk_lint (hok.wrappers object wrapper hwrapper).2 (sensor.lintKey file)
  have husedRules := hused.1 (hsame ▸ hready)
  rw [← hsame] at husedRules hlint
  have hexact : ∀ eslintKey, internalOptions world eslintKey = none →
      (((configOf world ⟨rules, environments, globals⟩ used).rules eslintKey).isSome = true ↔
        if mode.getLinterIdFor file.same = AnalysisMode.UNCHANGED_LINTER_ID then
          FirstUcfg sensor order (sensor.lintKey file) eslintKey
        else Active sensor order (sensor.lintKey file) eslintKey) := by
    intro eslintKey hinternal
    rw [husedRules]
    refine (enabledOptions_isSome hinternal).trans ?_
    rcases initLinter_cases hsent with ⟨hid, rfl⟩ | ⟨hid, rfl⟩
    · rw [if_neg (by rw [hid]; decide)]
      exact active_iff
    · rw [if_pos hid]
      exact firstUcfg_iff
  refine ⟨wrapper, _, wrapper', hwrapper, hlint, fun eslintKey hinternal => ⟨hexact eslintKey hinternal, fun hsome => ?_⟩⟩
  have hactive : Active sensor order (sensor.lintKey file) eslintKey := by
    have hlinted := (hexact eslintKey hinternal).mp hsome
    split_ifs at hlinted
    · exact .of_firstUcfg hlinted
    · exact hlinted
  obtain ⟨-, e, he, hlanguage, check, hcheck, hkey, -⟩ := hactive
  have hkeyed := @keyed_create V typeScriptChecks javaScriptChecks repositories
  have hsaved : e.1.language = file.language := by
    rw [hlanguage, lintKey_language hfile]
  have hfound := hkeyed.found e (horder.mem_iff.mp he) check hcheck eslintKey hkey
  rw [hsaved] at hfound
  obtain ⟨ruleKey, hruleKey⟩ := Option.isSome_iff_exists.mp hfound
  exact ⟨ruleKey, hruleKey, hkeyed.origin eslintKey file.language ruleKey hruleKey⟩

/-! ### A rule for TypeScript -/

def typeScriptCheck : Check ℕ := ⟨⟨"typescript", "S107"⟩, some "S107", [7], [.MAIN]⟩

def typeScriptOnly : List (LanguageAndRepository × List (Check ℕ)) :=
  [(⟨.ts, "typescript"⟩, [typeScriptCheck]), (⟨.js, "javascript"⟩, [])]

/-- The linter has the rule for a TypeScript file, and its issues have a rule key. -/
theorem linted_rules_typeScript : ∃ state wrapper linterConfig wrapper',
    Run (Step oneRule) .start [(.start, .initializeLinter "default" profile), (loadingProfile, .loaded 0 true)] state ∧
      state.wrappers 0 = some wrapper ∧
      wrapper.lint oneRule state.next ⟨.ts, .MAIN⟩ = .ok (linterConfig, wrapper') ∧
      (linterConfig.rules "S107").isSome = true ∧ ∃ ruleKey,
        (JsTsChecks.create [typeScriptCheck] [] []).ruleKeyByEslintKey "S107" .ts = some ruleKey := by
  have hfirst : Step oneRule .start (.initializeLinter "default" profile) loadingProfile := .initializeLinter _ _
  have hrun := Run.cons hfirst (.cons (.init (List.mem_singleton_self 0) rfl) (.nil _))
  have hknown : AllKnown oneRule profile := fun r hr => by
    obtain rfl : r = maxParameters := List.mem_singleton.mp hr
    rfl
  obtain ⟨wrapper, linterConfig, wrapper', hwrapper, hlint, hrules⟩ := @linted_rules _ [typeScriptCheck] [] [] typeScriptOnly
    oneRule .JsTs _ _ 0 hrun (List.Perm.refl _) .DEFAULT ⟨.ts, .MAIN, false⟩ (fun h => absurd rfl h) profile.inputRules
    [] [] List.mem_cons_self rfl rfl
    ⟨List.mem_cons_of_mem _ List.mem_cons_self, hknown⟩
  obtain ⟨hiff, hsaved⟩ := hrules "S107" rfl
  have hsome : (linterConfig.rules "S107").isSome = true := hiff.mpr ⟨fun h => by simp at h, _, List.mem_cons_self, rfl,
    typeScriptCheck, List.mem_singleton_self _, rfl, List.mem_singleton_self _⟩
  obtain ⟨ruleKey, hruleKey, -⟩ := hsaved hsome
  exact ⟨_, wrapper, linterConfig, wrapper', hrun, hwrapper, hlint, hsome, ruleKey, hruleKey⟩

end SonarJavascript.Analysis.RuleKeys
