import SonarJavascript.Analysis.AnalysisWithProgram
import SonarJavascript.Analysis.RuleKeys
import SonarJavascript.Ast.View
import SonarJavascript.Bridge.BridgeServerImpl
import SonarJavascript.Bridge.BridgeServerRuns
import SonarJavascript.Bridge.Delegate
import SonarJavascript.Bridge.EmbeddedNodeProcesses
import SonarJavascript.Bridge.FormData
import SonarJavascript.Bridge.Timeout
import SonarJavascript.Cache.Stability
import SonarJavascript.Cfg.ReachingTermination
import SonarJavascript.Css.CalcExpression
import SonarJavascript.Css.Lexer
import SonarJavascript.Embedded.AnalyzeEmbedded
import SonarJavascript.Embedded.ParseYaml
import SonarJavascript.Embedded.ParsingError
import SonarJavascript.Embedded.Patch
import SonarJavascript.Filter.AverageLineLength
import SonarJavascript.Filter.SizeAssessor
import SonarJavascript.Helpers.Collection
import SonarJavascript.Helpers.Conditions
import SonarJavascript.Helpers.Evaluations
import SonarJavascript.Helpers.Module
import SonarJavascript.Helpers.ObjectProperty
import SonarJavascript.Helpers.PackageJson
import SonarJavascript.Helpers.QualifiedNames
import SonarJavascript.Helpers.UniqueWrite
import SonarJavascript.Lcov.Conditions
import SonarJavascript.Lcov.LineHits
import SonarJavascript.Lcov.MergedCoverage
import SonarJavascript.Lcov.ReversePathTree
import SonarJavascript.Lib.BreadthFirst
import SonarJavascript.Lib.Environments
import SonarJavascript.Lib.Histories
import SonarJavascript.Lib.OrderedTree
import SonarJavascript.Lib.PowersetTop
import SonarJavascript.Lib.Projection
import SonarJavascript.Lib.Repetition
import SonarJavascript.Lib.Worklist
import SonarJavascript.Linter.CpdTokens
import SonarJavascript.Linter.CyclomaticComplexity
import SonarJavascript.Linter.EncodedMessage
import SonarJavascript.Linter.LinterSessions
import SonarJavascript.Linter.LinterWrapper
import SonarJavascript.Linter.Ncloc
import SonarJavascript.Linter.TransformMessages
import SonarJavascript.Linter.SymbolHighlighting
import SonarJavascript.ProjectAnalysis.AnalyzeProject
import SonarJavascript.Regex.Ast
import SonarJavascript.Regex.CaseInsensitive
import SonarJavascript.Regex.CharacterClass
import SonarJavascript.Regex.Extract
import SonarJavascript.Regex.Matcher
import SonarJavascript.Regex.TokenizedLiteral
import SonarJavascript.Rules.CognitiveComplexityRuns
import SonarJavascript.Rules.CommentedCode
import SonarJavascript.Rules.ConciseRegex
import SonarJavascript.Rules.ConditionalOperators
import SonarJavascript.Rules.ControlFlowNesting
import SonarJavascript.Rules.CoveredCondition
import SonarJavascript.Rules.DuplicateBranches
import SonarJavascript.Rules.DuplicateTypes
import SonarJavascript.Rules.DuplicatesInCharacterClass
import SonarJavascript.Rules.EmptyCollection
import SonarJavascript.Rules.EmptyStringRepetition
import SonarJavascript.Rules.EqualityInFor
import SonarJavascript.Rules.ExistingGroups
import SonarJavascript.Rules.ExtraArguments
import SonarJavascript.Rules.FilePermissions
import SonarJavascript.Rules.GratuitousConditions
import SonarJavascript.Rules.GratuitousRuns
import SonarJavascript.Rules.IdenticalBranches
import SonarJavascript.Rules.InvariantReturnRuns
import SonarJavascript.Rules.InvariantReturns
import SonarJavascript.Rules.LoopVisitor
import SonarJavascript.Rules.NestingLocality
import SonarJavascript.Rules.NoParameterReassignment
import SonarJavascript.Rules.RedundantAssignment
import SonarJavascript.Rules.RedundantJump
import SonarJavascript.Rules.RedundantOptional
import SonarJavascript.Rules.RegexComplexity
import SonarJavascript.Rules.RegexParts
import SonarJavascript.Rules.RegexSpaces
import SonarJavascript.Rules.ReluctantQuantifiers
import SonarJavascript.Rules.ShortCircuitNull
import SonarJavascript.Rules.SwitchFallthrough
import SonarJavascript.Rules.TableHeaders
import SonarJavascript.Rules.TestCaseAssertions
import SonarJavascript.Rules.UnicodeAwareRegex
import SonarJavascript.Rules.UnusedCollection
import SonarJavascript.Rules.UnusedImport
import SonarJavascript.Rules.UselessAssignment
import SonarJavascript.SonarLint.TsConfigFreshness
import SonarJavascript.SonarLint.TsConfigProvider
import SonarJavascript.SonarLint.TsConfigSessions
import SonarJavascript.Utils.UnicodeEscape
