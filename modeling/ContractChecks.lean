import ContractChecks.Capture.Guard
import ContractChecks.Capture.Plan
import ContractChecks.Command.Config
import ContractChecks.Command.Flags
import ContractChecks.Command.Generate
import ContractChecks.Command.Run
import ContractChecks.Contract.Basic
import ContractChecks.Contract.CaseTable
import ContractChecks.Contract.Clause
import ContractChecks.Contract.Context
import ContractChecks.Contract.Fault
import ContractChecks.Contract.IndexedTable
import ContractChecks.Contract.Predicate
import ContractChecks.Contract.Signals
import ContractChecks.Contract.Write
import ContractChecks.Declaration.Basic
import ContractChecks.Declaration.Contract
import ContractChecks.Directive.Comment
import ContractChecks.Directive.Expression
import ContractChecks.Directive.Fault
import ContractChecks.Directive.Form
import ContractChecks.Inheritance.Compose
import ContractChecks.Inheritance.Renaming
import ContractChecks.Main
import ContractChecks.Module.Item
import ContractChecks.Module.Layout
import ContractChecks.Module.Load
import ContractChecks.Module.Plan
import ContractChecks.Module.Source
import ContractChecks.Module.SourceText
import ContractChecks.Module.Target
import ContractChecks.Module.Types
import ContractChecks.PackagePath
import ContractChecks.Proofs.BoundOrigins
import ContractChecks.Proofs.BoundRecursion
import ContractChecks.Proofs.BracketDepth
import ContractChecks.Proofs.CaptureOrder
import ContractChecks.Proofs.CapturedTokens
import ContractChecks.Proofs.ClosedPieces
import ContractChecks.Proofs.ClosureNumbers
import ContractChecks.Proofs.ClosureScopes
import ContractChecks.Proofs.Command
import ContractChecks.Proofs.CompositionMeaning
import ContractChecks.Proofs.ConstructedObject
import ContractChecks.Proofs.CrosscutMembers
import ContractChecks.Proofs.DeclarationOutcomes
import ContractChecks.Proofs.Declarations
import ContractChecks.Proofs.DirectiveCases
import ContractChecks.Proofs.DirectiveComments
import ContractChecks.Proofs.Except
import ContractChecks.Proofs.Execution
import ContractChecks.Proofs.ExpandedNames
import ContractChecks.Proofs.ExpansionComplete
import ContractChecks.Proofs.ExpansionRun
import ContractChecks.Proofs.FilledWords
import ContractChecks.Proofs.ForeignReads
import ContractChecks.Proofs.GuardedCaptures
import ContractChecks.Proofs.GuardedPlans
import ContractChecks.Proofs.ImportBindings
import ContractChecks.Proofs.InheritedClauses
import ContractChecks.Proofs.InheritedParameters
import ContractChecks.Proofs.InheritedRenaming
import ContractChecks.Proofs.InheritedSources
import ContractChecks.Proofs.InheritedTexts
import ContractChecks.Proofs.JoinedScans
import ContractChecks.Proofs.LegalPackages
import ContractChecks.Proofs.LexemeBoundary
import ContractChecks.Proofs.Lists
import ContractChecks.Proofs.LoopNests
import ContractChecks.Proofs.MatchingBrackets
import ContractChecks.Proofs.Merging
import ContractChecks.Proofs.NameOccurrences
import ContractChecks.Proofs.NestedClosures
import ContractChecks.Proofs.OldDirectives
import ContractChecks.Proofs.OldExpressions
import ContractChecks.Proofs.OpaqueLiterals
import ContractChecks.Proofs.PackageQualifiers
import ContractChecks.Proofs.PaddedWords
import ContractChecks.Proofs.PlanContents
import ContractChecks.Proofs.PlanFaults
import ContractChecks.Proofs.PlannedJobs
import ContractChecks.Proofs.PositionOrder
import ContractChecks.Proofs.QuantifierFree
import ContractChecks.Proofs.QuantifierOffsets
import ContractChecks.Proofs.QuantifierPieces
import ContractChecks.Proofs.RangeEnumeration
import ContractChecks.Proofs.RangeMeaning
import ContractChecks.Proofs.RenamedText
import ContractChecks.Proofs.RenamingCapture
import ContractChecks.Proofs.RenamingLaws
import ContractChecks.Proofs.ResolvedOlds
import ContractChecks.Proofs.ResultOrder
import ContractChecks.Proofs.Schedules
import ContractChecks.Proofs.ScopeNames
import ContractChecks.Proofs.SelectedSignals
import ContractChecks.Proofs.SelectionHeads
import ContractChecks.Proofs.SignalVariables
import ContractChecks.Proofs.SignalsRoundTrip
import ContractChecks.Proofs.SpecCase
import ContractChecks.Proofs.SplicedNames
import ContractChecks.Proofs.StandaloneCalls
import ContractChecks.Proofs.StatementBuilder
import ContractChecks.Proofs.StatementTexts
import ContractChecks.Proofs.Synthesis
import ContractChecks.Proofs.TableRuns
import ContractChecks.Proofs.Temporaries
import ContractChecks.Proofs.TopLevelPieces
import ContractChecks.Proofs.TrimmedNames
import ContractChecks.Proofs.TrivialPredicates
import ContractChecks.Proofs.UsedTemporaries
import ContractChecks.Proofs.WholeWords
import ContractChecks.Proofs.WorkerPool
import ContractChecks.Proofs.WrapperCommands
import ContractChecks.Proofs.WrapperLayout
import ContractChecks.Proofs.WrapperNames
import ContractChecks.Proofs.WrapperRun
import ContractChecks.Quantifier.Bound
import ContractChecks.Quantifier.Expansion
import ContractChecks.Quantifier.Fault
import ContractChecks.Quantifier.Loop
import ContractChecks.Report.Path
import ContractChecks.Report.Position
import ContractChecks.Report.Result
import ContractChecks.Source.Bracket
import ContractChecks.Source.Chain
import ContractChecks.Source.Lexeme
import ContractChecks.Source.Literal
import ContractChecks.Source.Number
import ContractChecks.Source.Operator
import ContractChecks.Source.Token
import ContractChecks.Text.Basic
import ContractChecks.Text.Blank
import ContractChecks.Text.Printable
import ContractChecks.Text.Quoted
import ContractChecks.Text.Uppercase
import ContractChecks.Type.Expr
import ContractChecks.Type.Implements
import ContractChecks.Type.Reader
import ContractChecks.Type.Scope
import ContractChecks.Type.Universe
import ContractChecks.Violation.Family
import ContractChecks.Violation.Kind
import ContractChecks.Violation.Session
import ContractChecks.Violation.Signal
import ContractChecks.Wrapper.Code
import ContractChecks.Wrapper.Doc
import ContractChecks.Wrapper.File
import ContractChecks.Wrapper.Format
import ContractChecks.Wrapper.Imports
import ContractChecks.Wrapper.Signature
import ContractChecks.Wrapper.Statement
import ContractChecks.Wrapper.Synthesis
