import MetaAttack.Analysis.Analyzer
import MetaAttack.Analysis.Declare
import MetaAttack.Analysis.Walk
import MetaAttack.Check.Defines
import MetaAttack.Check.Extension
import MetaAttack.Check.Fields
import MetaAttack.Check.Remarks
import MetaAttack.Check.Steps
import MetaAttack.CommandLine.Arguments
import MetaAttack.CommandLine.Command
import MetaAttack.CommandLine.CommandError
import MetaAttack.CommandLine.Run
import MetaAttack.CommandLine.Scaffold
import MetaAttack.CommandLine.Verdict
import MetaAttack.Decimal
import MetaAttack.Diagnostic.FatalError
import MetaAttack.Diagnostic.ResolveError
import MetaAttack.Diagnostic.SemanticError
import MetaAttack.Files.FileError
import MetaAttack.Files.Memory
import MetaAttack.Files.Path
import MetaAttack.Files.Tree
import MetaAttack.Files.Tree.Loader
import MetaAttack.Main
import MetaAttack.Project.Load
import MetaAttack.Project.LoadError
import MetaAttack.Project.Manifest
import MetaAttack.Proofs.Additions
import MetaAttack.Proofs.Alike
import MetaAttack.Proofs.AlikeSpecs
import MetaAttack.Proofs.AlikeTerms
import MetaAttack.Proofs.Apart
import MetaAttack.Proofs.Arrivals
import MetaAttack.Proofs.Brokenness
import MetaAttack.Proofs.Categories
import MetaAttack.Proofs.Chain
import MetaAttack.Proofs.Concatenation
import MetaAttack.Proofs.Consuming
import MetaAttack.Proofs.Cycles
import MetaAttack.Proofs.Descendants
import MetaAttack.Proofs.Ends
import MetaAttack.Proofs.Entities
import MetaAttack.Proofs.Events
import MetaAttack.Proofs.Example
import MetaAttack.Proofs.ExprGrammar
import MetaAttack.Proofs.Extents
import MetaAttack.Proofs.Fields
import MetaAttack.Proofs.Findings
import MetaAttack.Proofs.FirstWins
import MetaAttack.Proofs.Firsts
import MetaAttack.Proofs.Grammar
import MetaAttack.Proofs.HasType
import MetaAttack.Proofs.InMemory
import MetaAttack.Proofs.Inclusion
import MetaAttack.Proofs.Independence
import MetaAttack.Proofs.Inheritance
import MetaAttack.Proofs.Inlining
import MetaAttack.Proofs.Intake
import MetaAttack.Proofs.Joining
import MetaAttack.Proofs.Joins
import MetaAttack.Proofs.Layout
import MetaAttack.Proofs.Literals
import MetaAttack.Proofs.Locating
import MetaAttack.Proofs.Location
import MetaAttack.Proofs.Loops
import MetaAttack.Proofs.Memory
import MetaAttack.Proofs.NormalPath
import MetaAttack.Proofs.Origins
import MetaAttack.Proofs.Outcome
import MetaAttack.Proofs.Overriding
import MetaAttack.Proofs.Positions
import MetaAttack.Proofs.Precedence
import MetaAttack.Proofs.Printing
import MetaAttack.Proofs.Progress
import MetaAttack.Proofs.Reading
import MetaAttack.Proofs.Refusals
import MetaAttack.Proofs.Registered
import MetaAttack.Proofs.Relocation
import MetaAttack.Proofs.Reordering
import MetaAttack.Proofs.Resolved
import MetaAttack.Proofs.Resolving
import MetaAttack.Proofs.Respelling
import MetaAttack.Proofs.Results
import MetaAttack.Proofs.Roots
import MetaAttack.Proofs.Rules
import MetaAttack.Proofs.Scaffolding
import MetaAttack.Proofs.Scanning
import MetaAttack.Proofs.Schema
import MetaAttack.Proofs.Searching
import MetaAttack.Proofs.Session
import MetaAttack.Proofs.Silence
import MetaAttack.Proofs.Slices
import MetaAttack.Proofs.Soundness
import MetaAttack.Proofs.Spans
import MetaAttack.Proofs.Spelling
import MetaAttack.Proofs.Stack
import MetaAttack.Proofs.Standalone
import MetaAttack.Proofs.StepGrammar
import MetaAttack.Proofs.StepRules
import MetaAttack.Proofs.StepSoundness
import MetaAttack.Proofs.Subtypes
import MetaAttack.Proofs.Tables
import MetaAttack.Proofs.TermSoundness
import MetaAttack.Proofs.Termination
import MetaAttack.Proofs.Times
import MetaAttack.Proofs.Trailing
import MetaAttack.Proofs.TtcGrammar
import MetaAttack.Proofs.Unfolding
import MetaAttack.Proofs.Verdict
import MetaAttack.Proofs.Version
import MetaAttack.Proofs.WellFormed
import MetaAttack.Proofs.Writing
import MetaAttack.Registry.Ancestry
import MetaAttack.Registry.Basic
import MetaAttack.Registry.Entry
import MetaAttack.Registry.Table
import MetaAttack.Span
import MetaAttack.Spec.Declaration
import MetaAttack.Spec.Declaration.Parser
import MetaAttack.Spec.Expr
import MetaAttack.Spec.Expr.Parser
import MetaAttack.Spec.Ident
import MetaAttack.Spec.ParseError
import MetaAttack.Spec.Parsed
import MetaAttack.Spec.Step
import MetaAttack.Spec.Step.Parser
import MetaAttack.Spec.Ttc
import MetaAttack.Spec.Ttc.Distribution
import MetaAttack.Spec.Ttc.Parser
import MetaAttack.Text.Case
import MetaAttack.Text.Lowercase
import MetaAttack.Token
import MetaAttack.Token.Lexeme
import MetaAttack.Token.Piece
import MetaAttack.Toml.Document
import MetaAttack.Toml.Node
import MetaAttack.Toml.Scalar
import MetaAttack.Toml.Text
import MetaAttack.Typing.Clauses
import MetaAttack.Typing.Judgement
import MetaAttack.Typing.Memo
import MetaAttack.Typing.Resolver
import MetaAttack.Typing.Work
