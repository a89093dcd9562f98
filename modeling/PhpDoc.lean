import PhpDoc.Lint.Fix
import PhpDoc.Policy.Basic
import PhpDoc.Problem.Failure
import PhpDoc.Text.Utf8
import PhpDoc.Edit.Fixer
import PhpDoc.Edit.Operation
import PhpDoc.Rule.Layout
import PhpDoc.Rule.Function
import PhpDoc.Rule.Property
import PhpDoc.Diff.Unified
import PhpDoc.Problem.Details
import PhpDoc.Problem.Diagnostic
import PhpDoc.Rule.Catalog
import PhpDoc.Report.Text
import PhpDoc.Data.Moment
import PhpDoc.Log.Record
import PhpDoc.Files.Selection
import PhpDoc.Settings
import PhpDoc.Toml.Document
import PhpDoc.Yaml.Document
import PhpDoc.Config.Source
import PhpDoc.Policy.Allowlist
import PhpDoc.Command.Usage
import PhpDoc.Run.Execute
import PhpDoc.Main
import PhpDoc.Proofs.Text.Lines
import PhpDoc.Proofs.Token.Grammar
import PhpDoc.Proofs.Token.Place
import PhpDoc.Proofs.Token.Piece
import PhpDoc.Proofs.Token.Span
import PhpDoc.Proofs.Token.Sound
import PhpDoc.Proofs.Comment.Geometry
import PhpDoc.Proofs.Comment.Star
import PhpDoc.Proofs.Comment.Tag
import PhpDoc.Proofs.Comment.Block
import PhpDoc.Proofs.Comment.Group
import PhpDoc.Proofs.Comment.ParamTag
import PhpDoc.Proofs.Comment.Preceding
import PhpDoc.Proofs.Edit.Changeset
import PhpDoc.Proofs.Edit.History
import PhpDoc.Proofs.Rule.Violation
import PhpDoc.Proofs.Rule.Layout
import PhpDoc.Proofs.Rule.Param
import PhpDoc.Proofs.Rule.Function
import PhpDoc.Proofs.Lint.Check
import PhpDoc.Proofs.Lint.Fix
import PhpDoc.Proofs.Lint.Tidy
import PhpDoc.Proofs.Lint.Frame
import PhpDoc.Proofs.Lint.Stable
import PhpDoc.Proofs.Token.Heredoc
import PhpDoc.Proofs.Token.Lookahead
import PhpDoc.Proofs.Token.Cut
import PhpDoc.Proofs.Token.Rewrite
import PhpDoc.Proofs.Token.Ends
import PhpDoc.Proofs.Token.Position
import PhpDoc.Proofs.Token.Unterminated
import PhpDoc.Proofs.Token.DocLine
import PhpDoc.Proofs.Token.Comments
import PhpDoc.Proofs.Token.Row
import PhpDoc.Proofs.Token.Sift
import PhpDoc.Proofs.Token.Outside
import PhpDoc.Proofs.Comment.Spot
import PhpDoc.Proofs.Comment.Carry
import PhpDoc.Proofs.Comment.Keep
import PhpDoc.Proofs.Rule.Writing
import PhpDoc.Proofs.Rule.Shape
import PhpDoc.Proofs.Rule.Rewording
import PhpDoc.Proofs.Rule.Reach
import PhpDoc.Proofs.Lint.Keep
import PhpDoc.Proofs.Lint.Listed
import PhpDoc.Proofs.Token.Bracket
import PhpDoc.Proofs.Rule.Anchor
import PhpDoc.Proofs.Strict.Reading
import PhpDoc.Proofs.Strict.Comment
import PhpDoc.Proofs.Strict.Declaration
import PhpDoc.Proofs.Strict.Layout
import PhpDoc.Proofs.Strict.Function
import PhpDoc.Proofs.Strict.Pass
import PhpDoc.Proofs.Token.Breaks
import PhpDoc.Proofs.Rule.Breaks
import PhpDoc.Proofs.Rule.Retain
import PhpDoc.Proofs.Lint.Breaks
import PhpDoc.Proofs.Comment.Guard
import PhpDoc.Proofs.Rule.Guard
import PhpDoc.Proofs.Lint.Code
import PhpDoc.Proofs.Files.Disk
import PhpDoc.Proofs.Run.Missing
import PhpDoc.Proofs.Token.Partner
import PhpDoc.Proofs.Policy.Engine
import PhpDoc.Proofs.Text.Utf8
import PhpDoc.Proofs.Run.File
import PhpDoc.Proofs.Run.Foretell
import PhpDoc.Proofs.Text.Case
import PhpDoc.Proofs.TypeName.Shape
import PhpDoc.Proofs.TypeName.Spelling
import PhpDoc.Proofs.TypeName.Union
import PhpDoc.Proofs.Comment.ParamValue
import PhpDoc.Proofs.Lint.Respace
import PhpDoc.Proofs.Comment.Retype
import PhpDoc.Proofs.Rule.FirstWord
import PhpDoc.Proofs.Comment.Description
import PhpDoc.Proofs.Lint.Columns
import PhpDoc.Proofs.Edit.Apart
import PhpDoc.Proofs.Token.Content
import PhpDoc.Proofs.Token.Neighbour
import PhpDoc.Proofs.Lint.Quiet
import PhpDoc.Proofs.Lint.OneLine
import PhpDoc.Proofs.Lint.Alone
import PhpDoc.Proofs.Lint.Expand
import PhpDoc.Proofs.Token.Code
import PhpDoc.Proofs.Comment.Partition
import PhpDoc.Proofs.Lint.Order
import PhpDoc.Proofs.Declaration.Parameter
import PhpDoc.Proofs.Documented.Text
import PhpDoc.Proofs.Documented.Comment
import PhpDoc.Proofs.Documented.Layout
import PhpDoc.Proofs.Documented.Declaration
import PhpDoc.Proofs.Documented.Params
import PhpDoc.Proofs.Documented.Clean
import PhpDoc.Proofs.Config.Version
import PhpDoc.Proofs.Config.Basic
import PhpDoc.Proofs.Policy.Allowlist
import PhpDoc.Proofs.Diff.Patch
import PhpDoc.Proofs.Declaration.Attribute
import PhpDoc.Proofs.Text.Digit
import PhpDoc.Proofs.Config.Release
import PhpDoc.Proofs.Data.Json
import PhpDoc.Proofs.Config.Fingerprint
import PhpDoc.Proofs.Config.Normal
import PhpDoc.Proofs.Edit.Operation
import PhpDoc.Proofs.Lint.Margin
