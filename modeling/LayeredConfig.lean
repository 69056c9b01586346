import LayeredConfig.Command.Arguments
import LayeredConfig.Command.Run
import LayeredConfig.Decimal.Binary64
import LayeredConfig.Decimal.Digits
import LayeredConfig.Decimal.Notation
import LayeredConfig.Decimal.Numeral
import LayeredConfig.Decimal.Shortest
import LayeredConfig.Error
import LayeredConfig.Export
import LayeredConfig.Format
import LayeredConfig.Json.Numeral
import LayeredConfig.Json.Printer
import LayeredConfig.Json.Reader
import LayeredConfig.Json.Skip
import LayeredConfig.Main
import LayeredConfig.Override.Overrides
import LayeredConfig.Override.Sniff
import LayeredConfig.Page.Compiler
import LayeredConfig.Page.Split
import LayeredConfig.Path.Basic
import LayeredConfig.Path.Reader
import LayeredConfig.Placeholder.Anchor
import LayeredConfig.Placeholder.Scan
import LayeredConfig.Proofs.Command.Agreement
import LayeredConfig.Proofs.Export
import LayeredConfig.Proofs.Format
import LayeredConfig.Proofs.Json.Layout
import LayeredConfig.Proofs.Json.RoundTrip
import LayeredConfig.Proofs.Json.Spelling
import LayeredConfig.Proofs.Override.Application
import LayeredConfig.Proofs.Override.Checking
import LayeredConfig.Proofs.Override.Coverage
import LayeredConfig.Proofs.Override.Filing
import LayeredConfig.Proofs.Override.Sniffing
import LayeredConfig.Proofs.Override.Tokens
import LayeredConfig.Proofs.Page.Absorb
import LayeredConfig.Proofs.Page.Forward
import LayeredConfig.Proofs.Page.Merging
import LayeredConfig.Proofs.Page.Overriding
import LayeredConfig.Proofs.Page.Run
import LayeredConfig.Proofs.Page.Splitting
import LayeredConfig.Proofs.Page.Step
import LayeredConfig.Proofs.Page.Strictness
import LayeredConfig.Proofs.Path.Grammar
import LayeredConfig.Proofs.Path.Keys
import LayeredConfig.Proofs.Path.Notation
import LayeredConfig.Proofs.Path.Steps
import LayeredConfig.Proofs.Placeholder.Anchor
import LayeredConfig.Proofs.Placeholder.Depth
import LayeredConfig.Proofs.Placeholder.Fill
import LayeredConfig.Proofs.Placeholder.Leafwise
import LayeredConfig.Proofs.Placeholder.Matching
import LayeredConfig.Proofs.Placeholder.Nest
import LayeredConfig.Proofs.Placeholder.Occurrence
import LayeredConfig.Proofs.Placeholder.Pieces
import LayeredConfig.Proofs.Placeholder.Relative
import LayeredConfig.Proofs.Placeholder.Rooted
import LayeredConfig.Proofs.Placeholder.Scanning
import LayeredConfig.Proofs.Placeholder.Sequence
import LayeredConfig.Proofs.Placeholder.Settled
import LayeredConfig.Proofs.Placeholder.Splice
import LayeredConfig.Proofs.Placeholder.Substitute
import LayeredConfig.Proofs.Resolve.Agreement
import LayeredConfig.Proofs.Resolve.Coercion
import LayeredConfig.Proofs.Resolve.Collapse
import LayeredConfig.Proofs.Resolve.Cycle
import LayeredConfig.Proofs.Resolve.Ending
import LayeredConfig.Proofs.Resolve.Flat
import LayeredConfig.Proofs.Resolve.KeyNames
import LayeredConfig.Proofs.Resolve.KeyResolution
import LayeredConfig.Proofs.Resolve.Layering
import LayeredConfig.Proofs.Resolve.Leafwise
import LayeredConfig.Proofs.Resolve.Level
import LayeredConfig.Proofs.Resolve.Lookup
import LayeredConfig.Proofs.Resolve.OneLevel
import LayeredConfig.Proofs.Resolve.Plain
import LayeredConfig.Proofs.Resolve.Ranks
import LayeredConfig.Proofs.Resolve.Renaming
import LayeredConfig.Proofs.Resolve.Report
import LayeredConfig.Proofs.Resolve.Sequence
import LayeredConfig.Proofs.Resolve.Snapshot
import LayeredConfig.Proofs.Resolve.Walk
import LayeredConfig.Proofs.Text.Lines
import LayeredConfig.Proofs.Tree.Assignment
import LayeredConfig.Proofs.Tree.Descent
import LayeredConfig.Proofs.Tree.DocumentOrder
import LayeredConfig.Proofs.Tree.Edits
import LayeredConfig.Proofs.Tree.Entries
import LayeredConfig.Proofs.Tree.Exchange
import LayeredConfig.Proofs.Tree.Fitting
import LayeredConfig.Proofs.Tree.Leaves
import LayeredConfig.Proofs.Tree.Merge
import LayeredConfig.Proofs.Tree.Outline
import LayeredConfig.Proofs.Tree.Overlay
import LayeredConfig.Proofs.Tree.Regrouping
import LayeredConfig.Proofs.Tree.Removal
import LayeredConfig.Proofs.Tree.Replacing
import LayeredConfig.Proofs.Tree.Rewrite
import LayeredConfig.Proofs.Tree.Texts
import LayeredConfig.Proofs.Tree.Write
import LayeredConfig.Resolve.Layers
import LayeredConfig.Resolve.Report
import LayeredConfig.Resolve.Resolution
import LayeredConfig.Settings
import LayeredConfig.Template.Capture
import LayeredConfig.Template.Expr
import LayeredConfig.Template.Filter
import LayeredConfig.Template.Item
import LayeredConfig.Template.Number
import LayeredConfig.Template.Operator
import LayeredConfig.Template.Order
import LayeredConfig.Template.Piece
import LayeredConfig.Template.Render
import LayeredConfig.Template.Scope
import LayeredConfig.Template.Spelling
import LayeredConfig.Template.Statement
import LayeredConfig.Template.Word
import LayeredConfig.Text.Blank
import LayeredConfig.Text.Escaped
import LayeredConfig.Text.LetterCase
import LayeredConfig.Text.Replace
import LayeredConfig.Text.Visible
import LayeredConfig.Tree.Access
import LayeredConfig.Tree.Edited
import LayeredConfig.Tree.Merge
import LayeredConfig.Tree.Value
import LayeredConfig.Tree.Walk
import LayeredConfig.Yaml.Cursor
import LayeredConfig.Yaml.Datum
import LayeredConfig.Yaml.Lexer
import LayeredConfig.Yaml.Node
import LayeredConfig.Yaml.Printer
import LayeredConfig.Yaml.Scalar
import LayeredConfig.Yaml.Token
