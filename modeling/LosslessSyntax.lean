import LosslessSyntax.Calc.Lexeme
import LosslessSyntax.Calc.Program
import LosslessSyntax.Calc.Source
import LosslessSyntax.Calc.Tree
import LosslessSyntax.Check.Decoder
import LosslessSyntax.Check.Issue
import LosslessSyntax.Fault
import LosslessSyntax.Grammar.Define
import LosslessSyntax.Grammar.Definition
import LosslessSyntax.Grammar.Registry
import LosslessSyntax.Grammar.Table
import LosslessSyntax.Journal.Basic
import LosslessSyntax.Journal.Line
import LosslessSyntax.Journal.Timestamp
import LosslessSyntax.Json
import LosslessSyntax.Number.Basic
import LosslessSyntax.Number.Decimal
import LosslessSyntax.Proofs.Accepting
import LosslessSyntax.Proofs.Additions
import LosslessSyntax.Proofs.Ancestry
import LosslessSyntax.Proofs.Attaching
import LosslessSyntax.Proofs.Attempts
import LosslessSyntax.Proofs.Beginnings
import LosslessSyntax.Proofs.Besides
import LosslessSyntax.Proofs.Compacting
import LosslessSyntax.Proofs.Composing
import LosslessSyntax.Proofs.Configuring
import LosslessSyntax.Proofs.Containment
import LosslessSyntax.Proofs.Covering
import LosslessSyntax.Proofs.Decoding
import LosslessSyntax.Proofs.Defining
import LosslessSyntax.Proofs.Depicting
import LosslessSyntax.Proofs.Descent
import LosslessSyntax.Proofs.Documents
import LosslessSyntax.Proofs.Enclosing
import LosslessSyntax.Proofs.Filling
import LosslessSyntax.Proofs.Flattening
import LosslessSyntax.Proofs.Forest
import LosslessSyntax.Proofs.Growing
import LosslessSyntax.Proofs.Indifference
import LosslessSyntax.Proofs.Journals
import LosslessSyntax.Proofs.Keeping
import LosslessSyntax.Proofs.Levels
import LosslessSyntax.Proofs.Lexing
import LosslessSyntax.Proofs.Lines
import LosslessSyntax.Proofs.Listing
import LosslessSyntax.Proofs.Locating
import LosslessSyntax.Proofs.Loggers
import LosslessSyntax.Proofs.Lossless
import LosslessSyntax.Proofs.Making
import LosslessSyntax.Proofs.Measures
import LosslessSyntax.Proofs.Nodes
import LosslessSyntax.Proofs.Numbering
import LosslessSyntax.Proofs.Numerals
import LosslessSyntax.Proofs.Omitting
import LosslessSyntax.Proofs.Operations
import LosslessSyntax.Proofs.Outline
import LosslessSyntax.Proofs.Pairs
import LosslessSyntax.Proofs.Parsing
import LosslessSyntax.Proofs.Patterns
import LosslessSyntax.Proofs.Precedence
import LosslessSyntax.Proofs.Printing
import LosslessSyntax.Proofs.Ranges
import LosslessSyntax.Proofs.Reading
import LosslessSyntax.Proofs.Refusals
import LosslessSyntax.Proofs.Reporting
import LosslessSyntax.Proofs.Roots
import LosslessSyntax.Proofs.Running
import LosslessSyntax.Proofs.Siblings
import LosslessSyntax.Proofs.Spans
import LosslessSyntax.Proofs.Texts
import LosslessSyntax.Proofs.Tiling
import LosslessSyntax.Proofs.Trimming
import LosslessSyntax.Proofs.Walking
import LosslessSyntax.Proofs.Wording
import LosslessSyntax.Report
import LosslessSyntax.Session
import LosslessSyntax.Settings
import LosslessSyntax.Store.Assign
import LosslessSyntax.Store.Basic
import LosslessSyntax.Store.Conversion
import LosslessSyntax.Store.Data
import LosslessSyntax.Store.Ground
import LosslessSyntax.Store.Object
import LosslessSyntax.Store.Sequence
import LosslessSyntax.Store.TokenFields
import LosslessSyntax.Text.Basic
import LosslessSyntax.Text.Lines
import LosslessSyntax.Token
import LosslessSyntax.Tree.Build
import LosslessSyntax.Tree.Items
import LosslessSyntax.Tree.Links
import LosslessSyntax.Tree.Locate
import LosslessSyntax.Tree.Measure
import LosslessSyntax.Tree.Render
import LosslessSyntax.Tree.Shape
import LosslessSyntax.Tree.Walk
import LosslessSyntax.Value.Basic
import LosslessSyntax.Value.Members
import LosslessSyntax.Value.Sequence
