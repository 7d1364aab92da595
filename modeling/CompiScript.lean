import CompiScript.Analysis.Child
import CompiScript.Analysis.Error
import CompiScript.Analysis.Expression
import CompiScript.Analysis.Operand
import CompiScript.Analysis.State
import CompiScript.Analysis.Statement
import CompiScript.Analysis.Visit
import CompiScript.Compile
import CompiScript.Dot.Graph
import CompiScript.Dot.Quote
import CompiScript.Dot.Rendering
import CompiScript.Files.Basic
import CompiScript.Grammar.Basic
import CompiScript.Grammar.Lookahead
import CompiScript.Grammar.Phrase
import CompiScript.Grammar.Progress
import CompiScript.Grammar.Rule
import CompiScript.Log.Argument
import CompiScript.Log.Console
import CompiScript.Log.Format
import CompiScript.Log.Place
import CompiScript.Log.Record
import CompiScript.Number.Binary
import CompiScript.Number.Floating
import CompiScript.Number.Ratio
import CompiScript.Number.Shortest
import CompiScript.Number.Written
import CompiScript.Parser.Ahead
import CompiScript.Parser.Basic
import CompiScript.Parser.Choice
import CompiScript.Parser.Error
import CompiScript.Parser.Input
import CompiScript.Proofs.Acceptance.Reader
import CompiScript.Proofs.Acceptance.Sentences
import CompiScript.Proofs.Additions
import CompiScript.Proofs.Answers
import CompiScript.Proofs.Blindness.Erasure
import CompiScript.Proofs.Blindness.Outcome
import CompiScript.Proofs.Browsing.Events
import CompiScript.Proofs.Browsing.Ledger
import CompiScript.Proofs.Browsing.Watched
import CompiScript.Proofs.Cascades
import CompiScript.Proofs.Chains.Levels
import CompiScript.Proofs.Chains.Weighing
import CompiScript.Proofs.Commuting.Beside
import CompiScript.Proofs.Commuting.Declarations
import CompiScript.Proofs.Compilation
import CompiScript.Proofs.Congruence.Statements
import CompiScript.Proofs.Congruence.Updates
import CompiScript.Proofs.Congruence.Visits
import CompiScript.Proofs.Copies
import CompiScript.Proofs.Decisions.Assignment
import CompiScript.Proofs.Decisions.Else
import CompiScript.Proofs.Decisions.Lookahead
import CompiScript.Proofs.Decisions.Names
import CompiScript.Proofs.Decisions.Suffixes
import CompiScript.Proofs.Dependence.Flag
import CompiScript.Proofs.Dependence.Sheltered
import CompiScript.Proofs.Derivation
import CompiScript.Proofs.Descent.Answers
import CompiScript.Proofs.Descent.Requests
import CompiScript.Proofs.Drawing.Items
import CompiScript.Proofs.Drawing.Recovery
import CompiScript.Proofs.Effects.Homes
import CompiScript.Proofs.Effects.Proper
import CompiScript.Proofs.Effects.Takes
import CompiScript.Proofs.Enclosures
import CompiScript.Proofs.Encoding
import CompiScript.Proofs.Entries
import CompiScript.Proofs.Equivariance.Stages
import CompiScript.Proofs.Equivariance.Tables
import CompiScript.Proofs.Equivariance.Types
import CompiScript.Proofs.Failures.Broken
import CompiScript.Proofs.Failures.Errors
import CompiScript.Proofs.Failures.Fits
import CompiScript.Proofs.Finished
import CompiScript.Proofs.Folders.Search
import CompiScript.Proofs.Folders.Writing
import CompiScript.Proofs.Following
import CompiScript.Proofs.Foresight.Completion
import CompiScript.Proofs.Foresight.Items
import CompiScript.Proofs.Headers
import CompiScript.Proofs.Histories
import CompiScript.Proofs.Identifiers
import CompiScript.Proofs.Joining
import CompiScript.Proofs.Lasting
import CompiScript.Proofs.LeftReading
import CompiScript.Proofs.Links.Calls
import CompiScript.Proofs.Links.Outlines
import CompiScript.Proofs.Links.Sound
import CompiScript.Proofs.Members.Expressions
import CompiScript.Proofs.Members.Replaced
import CompiScript.Proofs.Members.Sought
import CompiScript.Proofs.Members.Statements
import CompiScript.Proofs.Missing.Names
import CompiScript.Proofs.Missing.Origin
import CompiScript.Proofs.Missing.Wanted
import CompiScript.Proofs.Nearest
import CompiScript.Proofs.Numbering
import CompiScript.Proofs.Operations.Runs
import CompiScript.Proofs.Operations.Types
import CompiScript.Proofs.Outline
import CompiScript.Proofs.Ownership
import CompiScript.Proofs.Pairing
import CompiScript.Proofs.Parameters.Calm
import CompiScript.Proofs.Parameters.Mirrors
import CompiScript.Proofs.Places
import CompiScript.Proofs.Positions
import CompiScript.Proofs.Prefixes.Blame
import CompiScript.Proofs.Prefixes.Choices
import CompiScript.Proofs.Prefixes.Positions
import CompiScript.Proofs.Prefixes.Proper
import CompiScript.Proofs.Prefixes.Reader
import CompiScript.Proofs.Printing
import CompiScript.Proofs.Productions
import CompiScript.Proofs.Quoting
import CompiScript.Proofs.Reading.Expressions
import CompiScript.Proofs.Reading.Statements
import CompiScript.Proofs.References
import CompiScript.Proofs.Refusals.Levels
import CompiScript.Proofs.Refusals.Trees
import CompiScript.Proofs.Relabelling
import CompiScript.Proofs.Remarks
import CompiScript.Proofs.Renaming.Steps
import CompiScript.Proofs.Renaming.Trees
import CompiScript.Proofs.Replacement
import CompiScript.Proofs.Returning.Agreement
import CompiScript.Proofs.Returning.Places
import CompiScript.Proofs.Returning.Quiet
import CompiScript.Proofs.Rounds
import CompiScript.Proofs.Segments
import CompiScript.Proofs.Sentences
import CompiScript.Proofs.Separation
import CompiScript.Proofs.Sessions
import CompiScript.Proofs.Settling.Initialised
import CompiScript.Proofs.Settling.Types
import CompiScript.Proofs.Shadowing
import CompiScript.Proofs.Simulation.Expressions
import CompiScript.Proofs.Simulation.Follows
import CompiScript.Proofs.Simulation.Functions
import CompiScript.Proofs.Simulation.Statements
import CompiScript.Proofs.Sketch.Distinct
import CompiScript.Proofs.Sketch.Steps
import CompiScript.Proofs.Spelling
import CompiScript.Proofs.Steps
import CompiScript.Proofs.Syntax
import CompiScript.Proofs.Tracking.Closed
import CompiScript.Proofs.Tracking.Phrases
import CompiScript.Proofs.Tracking.Rules
import CompiScript.Proofs.Tracking.Stacks
import CompiScript.Proofs.Uniqueness
import CompiScript.Proofs.Updates
import CompiScript.Proofs.Uses.Names
import CompiScript.Proofs.Uses.Sites
import CompiScript.Proofs.Uses.Sound
import CompiScript.Proofs.Vocabulary.Languages
import CompiScript.Proofs.Vocabulary.Lengths
import CompiScript.Proofs.Writing.Observing
import CompiScript.Proofs.Writing.Retyping
import CompiScript.Scope.Basic
import CompiScript.Scope.Inference
import CompiScript.Symbol.Entity
import CompiScript.Symbol.Table
import CompiScript.Symbol.Type
import CompiScript.Text.Blank
import CompiScript.Text.Bytes
import CompiScript.Text.Path
import CompiScript.Text.Printed
import CompiScript.Text.Quoted
import CompiScript.Text.Visible
import CompiScript.Token.Basic
import CompiScript.Token.Kind
import CompiScript.Token.Lexer
import CompiScript.Tree.Basic
import CompiScript.Tree.Parts
import CompiScript.Workbench.Basic
import CompiScript.Workbench.Explorer
import CompiScript.Workbench.Layout
