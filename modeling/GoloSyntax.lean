import GoloSyntax.Command.Invocation
import GoloSyntax.Command.Options
import GoloSyntax.Command.Run
import GoloSyntax.Files.Access
import GoloSyntax.Files.Batch
import GoloSyntax.Files.Discovery
import GoloSyntax.Files.Tree
import GoloSyntax.Grammar.Branching
import GoloSyntax.Grammar.Declaration
import GoloSyntax.Grammar.Expression
import GoloSyntax.Grammar.Fault
import GoloSyntax.Grammar.Parse
import GoloSyntax.Grammar.Reading
import GoloSyntax.Grammar.Rule
import GoloSyntax.Grammar.Statement
import GoloSyntax.Limits
import GoloSyntax.Main
import GoloSyntax.Number.Decimal
import GoloSyntax.Number.Floating
import GoloSyntax.Number.Shortest
import GoloSyntax.Proofs.Access.Contained
import GoloSyntax.Proofs.Access.End
import GoloSyntax.Proofs.Access.Hold
import GoloSyntax.Proofs.Access.Links
import GoloSyntax.Proofs.Access.Machine
import GoloSyntax.Proofs.Access.Offsets
import GoloSyntax.Proofs.Access.Rules
import GoloSyntax.Proofs.Access.Run
import GoloSyntax.Proofs.Access.Walk
import GoloSyntax.Proofs.Command.Verdicts
import GoloSyntax.Proofs.Files.Discovery
import GoloSyntax.Proofs.Files.Paths
import GoloSyntax.Proofs.Files.Settings
import GoloSyntax.Proofs.Files.Workers
import GoloSyntax.Proofs.Grammar.Derivations
import GoloSyntax.Proofs.Grammar.Legible
import GoloSyntax.Proofs.Grammar.Names
import GoloSyntax.Proofs.Grammar.OneLine
import GoloSyntax.Proofs.Grammar.Parts
import GoloSyntax.Proofs.Grammar.Progress
import GoloSyntax.Proofs.Grammar.Reads
import GoloSyntax.Proofs.Grammar.Spelling
import GoloSyntax.Proofs.Grammar.Spine
import GoloSyntax.Proofs.Grammar.Table
import GoloSyntax.Proofs.Number.Rounding
import GoloSyntax.Proofs.Reading.Branchings
import GoloSyntax.Proofs.Reading.Careful
import GoloSyntax.Proofs.Reading.CutRules
import GoloSyntax.Proofs.Reading.Cutting
import GoloSyntax.Proofs.Reading.Declarations
import GoloSyntax.Proofs.Reading.Exhausted
import GoloSyntax.Proofs.Reading.Expressions
import GoloSyntax.Proofs.Reading.Extent
import GoloSyntax.Proofs.Reading.Faults
import GoloSyntax.Proofs.Reading.Floats
import GoloSyntax.Proofs.Reading.ForkDeclarations
import GoloSyntax.Proofs.Reading.ForkRules
import GoloSyntax.Proofs.Reading.Forks
import GoloSyntax.Proofs.Reading.Frugal
import GoloSyntax.Proofs.Reading.Gates
import GoloSyntax.Proofs.Reading.Insertion
import GoloSyntax.Proofs.Reading.Integers
import GoloSyntax.Proofs.Reading.Judgement
import GoloSyntax.Proofs.Reading.Limits
import GoloSyntax.Proofs.Reading.Lines
import GoloSyntax.Proofs.Reading.Nodes
import GoloSyntax.Proofs.Reading.Parse
import GoloSyntax.Proofs.Reading.Phrases
import GoloSyntax.Proofs.Reading.Places
import GoloSyntax.Proofs.Reading.Questions
import GoloSyntax.Proofs.Reading.Room
import GoloSyntax.Proofs.Reading.Rounds
import GoloSyntax.Proofs.Reading.Run
import GoloSyntax.Proofs.Reading.Sentences
import GoloSyntax.Proofs.Reading.Source
import GoloSyntax.Proofs.Reading.Statements
import GoloSyntax.Proofs.Reading.Truncation
import GoloSyntax.Proofs.Reading.Truthful
import GoloSyntax.Proofs.Reading.Twins
import GoloSyntax.Proofs.Reading.Visits
import GoloSyntax.Proofs.Reading.Watched
import GoloSyntax.Proofs.Shape.Arena
import GoloSyntax.Proofs.Shape.Atoms
import GoloSyntax.Proofs.Shape.Brackets
import GoloSyntax.Proofs.Shape.Chains
import GoloSyntax.Proofs.Shape.Dumps
import GoloSyntax.Proofs.Shape.Indentation
import GoloSyntax.Proofs.Shape.Layout
import GoloSyntax.Proofs.Shape.Listing
import GoloSyntax.Proofs.Shape.Literals
import GoloSyntax.Proofs.Shape.Operands
import GoloSyntax.Proofs.Shape.Precedence
import GoloSyntax.Proofs.Shape.Preorder
import GoloSyntax.Proofs.Shape.Slices
import GoloSyntax.Proofs.Shape.Spans
import GoloSyntax.Proofs.Shape.Walks
import GoloSyntax.Proofs.Text.OneLine
import GoloSyntax.Proofs.Text.Quoting
import GoloSyntax.Proofs.Text.Splitting
import GoloSyntax.Proofs.Token.Excerpts
import GoloSyntax.Proofs.Token.Limits
import GoloSyntax.Proofs.Token.Munch
import GoloSyntax.Proofs.Token.Neighbours
import GoloSyntax.Proofs.Token.Numbers
import GoloSyntax.Proofs.Token.Numerals
import GoloSyntax.Proofs.Token.Positions
import GoloSyntax.Proofs.Token.Quotations
import GoloSyntax.Proofs.Token.Recovery
import GoloSyntax.Proofs.Token.Scanning
import GoloSyntax.Proofs.Token.Scientific
import GoloSyntax.Proofs.Token.Symbols
import GoloSyntax.Proofs.Token.Texts
import GoloSyntax.Proofs.Token.Tiling
import GoloSyntax.Proofs.Tree.Alike
import GoloSyntax.Proofs.Tree.Building
import GoloSyntax.Proofs.Tree.Construct
import GoloSyntax.Proofs.Tree.Editing
import GoloSyntax.Proofs.Tree.OneLine
import GoloSyntax.Proofs.Tree.Outline
import GoloSyntax.Proofs.Tree.Rendering
import GoloSyntax.Proofs.Tree.Subtree
import GoloSyntax.Settings
import GoloSyntax.Source.Cursor
import GoloSyntax.Source.Position
import GoloSyntax.Symbol
import GoloSyntax.Text.Printable
import GoloSyntax.Text.Quoted
import GoloSyntax.Token.Basic
import GoloSyntax.Token.Fault
import GoloSyntax.Token.Kind
import GoloSyntax.Token.Lexer
import GoloSyntax.Token.Numeral
import GoloSyntax.Token.Quoted
import GoloSyntax.Token.Trivia
import GoloSyntax.Token.Word
import GoloSyntax.Toml.Document
import GoloSyntax.Toml.Scalar
import GoloSyntax.Toml.Text
import GoloSyntax.Toml.Value
import GoloSyntax.Tree.Basic
import GoloSyntax.Tree.Dump
import GoloSyntax.Tree.Kind
import GoloSyntax.Tree.Literal
import GoloSyntax.Tree.Operator
import GoloSyntax.Tree.Visit
