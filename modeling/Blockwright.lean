import Blockwright.Archive.Inflate
import Blockwright.Archive.Line
import Blockwright.Archive.Reader
import Blockwright.Archive.Zip
import Blockwright.Arguments
import Blockwright.Block
import Blockwright.Bytes
import Blockwright.Catalogue.Basic
import Blockwright.Catalogue.Library
import Blockwright.Colour
import Blockwright.CommandLine.Arguments
import Blockwright.CommandLine.Directory
import Blockwright.CommandLine.Host
import Blockwright.CommandLine.Run
import Blockwright.Compile
import Blockwright.CustomBlock
import Blockwright.Decimal.Basic
import Blockwright.Decimal.Binary64
import Blockwright.Decimal.Range
import Blockwright.Decimal.Shortest
import Blockwright.Dict
import Blockwright.Digest
import Blockwright.Emission
import Blockwright.Failure
import Blockwright.Fault
import Blockwright.Interpreter
import Blockwright.Json.Basic
import Blockwright.Json.Reader
import Blockwright.Json.Record
import Blockwright.Json.Writer
import Blockwright.Main
import Blockwright.Markup.Character
import Blockwright.Markup.Doctype
import Blockwright.Markup.Encoding
import Blockwright.Markup.Name
import Blockwright.Markup.Node
import Blockwright.Markup.Reader
import Blockwright.Markup.Token
import Blockwright.Markup.Writer
import Blockwright.Module.Basic
import Blockwright.Module.Synthesis
import Blockwright.Palette
import Blockwright.Precedence
import Blockwright.Preview
import Blockwright.Project
import Blockwright.Proofs.Acceptance
import Blockwright.Proofs.Archives
import Blockwright.Proofs.BlockTrees
import Blockwright.Proofs.Brackets
import Blockwright.Proofs.Categories
import Blockwright.Proofs.Connections
import Blockwright.Proofs.Coordinates
import Blockwright.Proofs.Coverage
import Blockwright.Proofs.Deletion
import Blockwright.Proofs.Directories
import Blockwright.Proofs.Edits
import Blockwright.Proofs.Effects
import Blockwright.Proofs.Extension
import Blockwright.Proofs.Forest
import Blockwright.Proofs.Grammar
import Blockwright.Proofs.Hanging
import Blockwright.Proofs.HeldText
import Blockwright.Proofs.History
import Blockwright.Proofs.HueHash
import Blockwright.Proofs.Indentation
import Blockwright.Proofs.JsonText
import Blockwright.Proofs.Layout
import Blockwright.Proofs.Lexing
import Blockwright.Proofs.Lines
import Blockwright.Proofs.LoadedPrograms
import Blockwright.Proofs.Loading
import Blockwright.Proofs.Locality
import Blockwright.Proofs.Members
import Blockwright.Proofs.NormalForm
import Blockwright.Proofs.Parts
import Blockwright.Proofs.PlainRules
import Blockwright.Proofs.Preorder
import Blockwright.Proofs.Previews
import Blockwright.Proofs.Projects
import Blockwright.Proofs.Prologues
import Blockwright.Proofs.Reading
import Blockwright.Proofs.Readings
import Blockwright.Proofs.Receivers
import Blockwright.Proofs.Registration
import Blockwright.Proofs.Reloading
import Blockwright.Proofs.Rendering
import Blockwright.Proofs.Repeats
import Blockwright.Proofs.Saving
import Blockwright.Proofs.ScriptTokens
import Blockwright.Proofs.Scripts
import Blockwright.Proofs.Splitting
import Blockwright.Proofs.StackOrder
import Blockwright.Proofs.StringLiterals
import Blockwright.Proofs.Suites
import Blockwright.Proofs.Synthesis
import Blockwright.Proofs.Toggling
import Blockwright.Proofs.Toolboxes
import Blockwright.Proofs.Totality
import Blockwright.Proofs.Traversal
import Blockwright.Proofs.Typing
import Blockwright.Proofs.Unambiguity
import Blockwright.Proofs.Utf8
import Blockwright.Proofs.Walk
import Blockwright.Proofs.Words
import Blockwright.Registry
import Blockwright.Rule
import Blockwright.Schema
import Blockwright.Script.Command
import Blockwright.Script.Process
import Blockwright.Script.Start
import Blockwright.Script.Token
import Blockwright.Text.CodePage
import Blockwright.Text.Digits
import Blockwright.Text.Identifier
import Blockwright.Text.Join
import Blockwright.Text.Layout
import Blockwright.Text.Lines
import Blockwright.Text.Space
import Blockwright.Text.Utf8
import Blockwright.Toolbox
import Blockwright.Workspace.Basic
import Blockwright.Workspace.Document
import Blockwright.Workspace.Edit
