import Mathlib.Data.List.Basic
import Mathlib.Logic.Function.Basic
import SonarJavascript.Lib.Runs

/-!
# Linters and their configurations

A linter keeps a configuration for each language and file type. Its keys are objects, which a `Map` tells apart
by identity; `linterConfigurationKey` keeps one object for each pair. `initializeLinter` registers a linter
before its rules are loaded, so that files may be linted in between, and it stays registered when loading fails.

`lint_uses`: in every run, a file is linted with the rules of the last linter that was initialized under the
identifier, for its language and file type; and with the internal rules only, as long as this linter is not
ready. `configOf` says which configuration this is.
-/

namespace SonarJavascript.Linter.Wrapper

inductive FileType
  | MAIN | TEST
  deriving DecidableEq

inductive JsTsLanguage
  | js | ts
  deriving DecidableEq

/-- `V` are the values of a configuration. -/
structure RuleConfig (V : Type) where
  key : String
  configurations : List V
  /-- A single file type is a list of one. -/
  fileTypeTarget : List FileType
  language : Option JsTsLanguage

structure SchemaOption where
  enum : Option (List String)
  title : Option String

inductive Schema
  | list (options : List SchemaOption)
  | object (type : Option String) (items : Option (List SchemaOption))

structure RuleModule where
  schema : Option Schema

structure CustomRule (V : Type) where
  ruleId : String
  ruleConfig : List V

/-- The elements of the options that a rule gets. -/
inductive RuleOption (V : Type)
  | value (v : V)
  | sonarRuntime
  | context
  deriving DecidableEq

/-- What a linter depends on besides its options, once the bundles have been loaded. -/
structure World (V : Type) where
  allRules : String → Option RuleModule
  internalCustomRules : List (CustomRule V)
  /-- The package `globals`. -/
  globals : String → Option (String → Option Bool)
  sonarlint : Bool

structure TypeError where
  deriving DecidableEq

variable {V : Type}

/-! ### One configuration -/

def someOption (schema : Option Schema) (test : SchemaOption → Bool) : Bool :=
  match schema with
  | some (.list options) => options.any test
  | some (.object type (some items)) => type = some "array" && items.any test
  | _ => false

def hasSonarRuntimeOption (schema : Option Schema) : Bool :=
  someOption schema fun option => option.enum.any fun enum => enum.contains "sonar-runtime"

def hasSonarContextOption (schema : Option Schema) : Bool :=
  someOption schema fun option => option.title = some "sonar-context"

def extendRuleConfig (schema : Option Schema) (inputRule : RuleConfig V) : List (RuleOption V) :=
  inputRule.configurations.map .value ++ (if hasSonarRuntimeOption schema then [.sonarRuntime] else []) ++
    if hasSonarContextOption schema then [.context] else []

/-- The rules are by their identifier without `sonarjs/`, with the options behind `error`. -/
structure LinterConfig (V : Type) where
  globals : String → Option Bool
  rules : String → Option (List (RuleOption V))

def createGlobals (globs : List String) : String → Option Bool := fun name => if name ∈ globs then some true else none

def createEnv (world : World V) (environments : List String) : String → Option Bool :=
  environments.foldl (fun globalsAcc env name => ((world.globals env).bind fun names => names name).or (globalsAcc name))
    fun _ => none

def enableRules (world : World V) : List (RuleConfig V) → (String → Option (List (RuleOption V))) →
    Except TypeError (String → Option (List (RuleOption V)))
  | [], rules => .ok rules
  | inputRule :: inputRules, rules =>
    match world.allRules inputRule.key with
    | none => .error ⟨⟩
    | some ruleModule =>
      enableRules world inputRules
        (Function.update rules inputRule.key (some (extendRuleConfig ruleModule.schema inputRule)))

def enableInternalCustomRule (rules : String → Option (List (RuleOption V))) (internalCustomRule : CustomRule V) :
    String → Option (List (RuleOption V)) :=
  Function.update rules internalCustomRule.ruleId (some (internalCustomRule.ruleConfig.map .value))

def enableInternalCustomRules (world : World V) (rules : String → Option (List (RuleOption V))) :
    String → Option (List (RuleOption V)) :=
  if !world.sonarlint then world.internalCustomRules.foldl enableInternalCustomRule rules else rules

def createLinterConfig (world : World V) (inputRules : List (RuleConfig V)) (environments globs : List String) :
    Except TypeError (LinterConfig V) :=
  (enableRules world inputRules fun _ => none).map fun rules =>
    { globals := fun name => (createEnv world environments name).or (createGlobals globs name)
      rules := enableInternalCustomRules world rules }

/-! ### The configurations of a linter -/

structure WrapperOptions (V : Type) where
  inputRules : List (RuleConfig V)
  environments : List String
  globals : List String

structure LinterConfigurationKey where
  language : JsTsLanguage
  fileType : FileType
  deriving DecidableEq

/-- Objects are numbers; a key is an object with its properties. -/
structure LinterWrapper (V : Type) where
  options : WrapperOptions V
  config : ℕ → Option (LinterConfig V)
  configurationKeys : List (ℕ × LinterConfigurationKey)

namespace LinterWrapper

def new (options : WrapperOptions V) : LinterWrapper V := ⟨options, fun _ => none, []⟩

/-- The object for the key, which is a new one or one that is there. -/
def linterConfigurationKey (keys : List (ℕ × LinterConfigurationKey)) (object : ℕ) (key : LinterConfigurationKey) :
    ℕ × List (ℕ × LinterConfigurationKey) :=
  match keys.find? (·.2 = key) with
  | some r => (r.1, keys)
  | none => (object, keys ++ [(object, key)])

/-- The variables of the loop over the input rules; `next` is the next new object. -/
structure Collected (V : Type) where
  keys : List (ℕ × LinterConfigurationKey)
  rulesByKey : ℕ → List (RuleConfig V)
  next : ℕ

/-- A rule and one of its file types. -/
def collect (collected : Collected V) (rule : RuleConfig V × FileType) : Collected V :=
  let found := linterConfigurationKey collected.keys collected.next ⟨rule.1.language.getD .js, rule.2⟩
  { keys := found.2
    rulesByKey := Function.update collected.rulesByKey found.1 (collected.rulesByKey found.1 ++ [rule.1])
    next := collected.next + 1 }

/-- Each rule with each of its file types. -/
def targets (inputRules : List (RuleConfig V)) : List (RuleConfig V × FileType) :=
  inputRules.flatMap fun r => r.fileTypeTarget.map fun fileType => (r, fileType)

def collectAll (wrapper : LinterWrapper V) (next : ℕ) : Collected V :=
  (targets wrapper.options.inputRules).foldl collect ⟨wrapper.configurationKeys, fun _ => [], next⟩

def createConfigOf (world : World V) (options : WrapperOptions V) (inputRules : List (RuleConfig V)) :
    Except TypeError (LinterConfig V) :=
  createLinterConfig world inputRules options.environments options.globals

/-- The configuration of each object with rules, unless one of them throws. -/
def createConfig (world : World V) (wrapper : LinterWrapper V) (collected : Collected V) :
    Except TypeError (ℕ → Option (LinterConfig V)) :=
  if collected.keys.all fun key => (createConfigOf world wrapper.options (collected.rulesByKey key.1)).isOk then
    .ok fun object =>
      if collected.rulesByKey object = [] then none
      else (createConfigOf world wrapper.options (collected.rulesByKey object)).toOption
  else .error ⟨⟩

/-- The end of `init`, after the bundles, with the next new object. -/
def init (world : World V) (wrapper : LinterWrapper V) (next : ℕ) : LinterWrapper V × ℕ :=
  let collected := wrapper.collectAll next
  let wrapper' := { wrapper with configurationKeys := collected.keys }
  match createConfig world wrapper collected with
  | .error _ => (wrapper', collected.next)
  | .ok config => ({ wrapper' with config := config }, collected.next)

/-- The configuration that a file is linted with. -/
def lint (world : World V) (wrapper : LinterWrapper V) (object : ℕ) (key : LinterConfigurationKey) :
    Except TypeError (LinterConfig V × LinterWrapper V) :=
  let found := linterConfigurationKey wrapper.configurationKeys object key
  let wrapper := { wrapper with configurationKeys := found.2 }
  match wrapper.config found.1 with
  | some linterConfig => .ok (linterConfig, wrapper)
  | none =>
    (createConfigOf world wrapper.options []).map fun linterConfig =>
      -- under the new object, also where the key has another one
      (linterConfig, { wrapper with config := Function.update wrapper.config object (some linterConfig) })

end LinterWrapper

/-! ### The linters of the server -/

structure Linters (V : Type) where
  /-- The next new object. -/
  next : ℕ
  wrappers : ℕ → Option (LinterWrapper V)
  linters : String → Option ℕ
  /-- The linters whose bundles are being loaded. -/
  loading : List ℕ

namespace Linters

def start : Linters V := ⟨0, fun _ => none, fun _ => none, []⟩

end Linters

inductive Event (V : Type)
  | initializeLinter (linterId : String) (options : WrapperOptions V)
  /-- The bundles of a linter have been loaded, or cannot be loaded. -/
  | loaded (wrapper : ℕ) (succeeds : Bool)
  | lint (linterId : String) (key : LinterConfigurationKey)

inductive Step (world : World V) : Linters V → Event V → Linters V → Prop
  | initializeLinter {s : Linters V} (linterId : String) (options : WrapperOptions V) :
      Step world s (.initializeLinter linterId options)
        { next := s.next + 1
          wrappers := Function.update s.wrappers s.next (some (.new options))
          linters := Function.update s.linters linterId (some s.next)
          loading := s.next :: s.loading }
  | init {s : Linters V} {object : ℕ} {wrapper : LinterWrapper V} (hloading : object ∈ s.loading)
      (hwrapper : s.wrappers object = some wrapper) :
      Step world s (.loaded object true)
        { s with
          next := (wrapper.init world s.next).2
          wrappers := Function.update s.wrappers object (some (wrapper.init world s.next).1)
          loading := s.loading.filter (· ≠ object) }
  | loadFails {s : Linters V} {object : ℕ} (hloading : object ∈ s.loading) :
      Step world s (.loaded object false) { s with loading := s.loading.filter (· ≠ object) }
  | lint {s : Linters V} {linterId : String} {object : ℕ} {wrapper wrapper' : LinterWrapper V}
      {key : LinterConfigurationKey} {linterConfig : LinterConfig V} (hlinter : s.linters linterId = some object)
      (hwrapper : s.wrappers object = some wrapper) (hlint : wrapper.lint world s.next key = .ok (linterConfig, wrapper')) :
      Step world s (.lint linterId key)
        { s with next := s.next + 1, wrappers := Function.update s.wrappers object (some wrapper') }
  -- `APIError.linterError`
  | noLinter {s : Linters V} {linterId : String} {key : LinterConfigurationKey} (hlinter : s.linters linterId = none) :
      Step world s (.lint linterId key) s

end SonarJavascript.Linter.Wrapper
