import GioForge.Code.Fragment
import GioForge.Code.Imports
import GioForge.Code.Writer
import GioForge.Command.Args
import GioForge.Command.Report
import GioForge.Command.Run
import GioForge.Compilation
import GioForge.Component.Basic
import GioForge.Component.Builtin
import GioForge.Component.Error
import GioForge.Data.OrderedSet
import GioForge.Data.Table
import GioForge.Diagnostic
import GioForge.Diagnostic.Encode
import GioForge.Document.Decode
import GioForge.Document.Fault
import GioForge.Document.Format
import GioForge.Document.Node
import GioForge.Document.Open
import GioForge.FileTree
import GioForge.Go.Literal
import GioForge.Handlers
import GioForge.Json.Numeral
import GioForge.Json.Printer
import GioForge.Json.Reader
import GioForge.Json.Token
import GioForge.Main
import GioForge.Manifest
import GioForge.Number.Binary64
import GioForge.Number.Shortest
import GioForge.Output
import GioForge.Path
import GioForge.Program
import GioForge.Project
import GioForge.Relation.Basic
import GioForge.Relation.Decode
import GioForge.Relation.Encode
import GioForge.Resolution
import GioForge.Response.Basic
import GioForge.Response.Message
import GioForge.Text.Blank
import GioForge.Text.Digit
import GioForge.Text.Lines
import GioForge.Toml.Item
import GioForge.Toml.Moment
import GioForge.Toml.Reader
import GioForge.Toml.Scalar
import GioForge.Toml.Text
import GioForge.Ui.Basic
import GioForge.Ui.Decode
import GioForge.Ui.Encode
import GioForge.Value
import GioForge.Window
import GioForge.Proofs.Data.Table
import GioForge.Proofs.Resolution.LastWins
import GioForge.Proofs.Go.Interpreted
import GioForge.Proofs.Go.Scanner
import GioForge.Proofs.Code.Layout
import GioForge.Proofs.Component.Builtin
import GioForge.Proofs.Response.Message
import GioForge.Proofs.Compilation.Page
import GioForge.Proofs.Program.Layout
import GioForge.Proofs.Code.Imports
import GioForge.Proofs.Compilation.PageImports
import GioForge.Proofs.Compilation.PageLines
import GioForge.Proofs.Compilation.Literals
import GioForge.Proofs.Compilation.Erasure
import GioForge.Proofs.Compilation.ImportUse
import GioForge.Proofs.Go.Brackets
import GioForge.Proofs.Go.Lexemes
import GioForge.Proofs.Compilation.PageBrackets
import GioForge.Proofs.Compilation.WellFormed
import GioForge.Proofs.Component.Acceptance
import GioForge.Proofs.Compilation.Translation
import GioForge.Proofs.Compilation.Acceptance
import GioForge.Proofs.Compilation.Bindings
import GioForge.Proofs.Go.Names
import GioForge.Proofs.Compilation.PageVariables
import GioForge.Proofs.Compilation.Variables
import GioForge.Proofs.Resolution.Reports
import GioForge.Proofs.Compilation.Canonical
import GioForge.Proofs.Compilation.HandlerUse
import GioForge.Proofs.FileTree.Storing
import GioForge.Proofs.Output.Runs
import GioForge.Proofs.Command.Agreement
import GioForge.Proofs.Command.DryRun
import GioForge.Proofs.Resolution.Rearrangement
import GioForge.Proofs.FileTree.Obstacles
import GioForge.Proofs.Document.Records
import GioForge.Proofs.Document.RoundTrip
import GioForge.Proofs.Document.Values
import GioForge.Proofs.Ui.Rereading
import GioForge.Proofs.Json.Reading
import GioForge.Proofs.Json.Tokens
import GioForge.Proofs.Document.KeyOrder
import GioForge.Proofs.Compilation.Registration
import GioForge.Proofs.Compilation.ElementOrder
import GioForge.Proofs.Json.Pretty
import GioForge.Proofs.Command.Actions
import GioForge.Proofs.Go.Grammar
import GioForge.Proofs.Compilation.Characters
import GioForge.Proofs.Manifest.Directives
import GioForge.Proofs.Project.SettingsFile
import GioForge.Proofs.Text.Lines
import GioForge.Proofs.Code.Placement
import GioForge.Proofs.Code.LastLine
import GioForge.Proofs.Code.Rebasing
import GioForge.Proofs.Program.Returns
import GioForge.Proofs.Code.SharedMargin
import GioForge.Proofs.Text.ByteOrder
import GioForge.Proofs.Data.OrderedSet
import GioForge.Proofs.Code.ImportJoin
import GioForge.Proofs.Document.Position
