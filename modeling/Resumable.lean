import Resumable.Browser.Field
import Resumable.Browser.Row
import Resumable.Browser.Screen
import Resumable.Cache.File
import Resumable.Cache.Store
import Resumable.Cbor.Item
import Resumable.Cbor.Parser
import Resumable.Code.Basic
import Resumable.Code.Cbor
import Resumable.Code.Encoding
import Resumable.Code.Json
import Resumable.Code.Outline
import Resumable.Code.Yaml
import Resumable.CommandLine.Conversation
import Resumable.CommandLine.Execute
import Resumable.CommandLine.Flags
import Resumable.CommandLine.Host
import Resumable.CommandLine.Work
import Resumable.Compiler
import Resumable.Convention
import Resumable.Digest.Sha256
import Resumable.Failure
import Resumable.Files.Tree
import Resumable.Json.Parser
import Resumable.Json.Value
import Resumable.Log
import Resumable.Main
import Resumable.Output.Format
import Resumable.Pattern.Basic
import Resumable.Pattern.Parser
import Resumable.Program.Compile
import Resumable.Program.Frames
import Resumable.Program.Instr
import Resumable.Program.Rebuild
import Resumable.Program.Rename
import Resumable.Program.Scope
import Resumable.Program.Serialize
import Resumable.Program.Trail
import Resumable.Program.Transform
import Resumable.Program.Vars
import Resumable.Program.Walk
import Resumable.Proofs.Browser.Rows
import Resumable.Proofs.Cache.History
import Resumable.Proofs.Cache.Running
import Resumable.Proofs.Cache.Separation
import Resumable.Proofs.Cache.Transparency
import Resumable.Proofs.Cbor.Items
import Resumable.Proofs.Changes.Interference
import Resumable.Proofs.Changes.Places
import Resumable.Proofs.Changes.Programs
import Resumable.Proofs.Changes.Residue
import Resumable.Proofs.Code.Accepted
import Resumable.Proofs.Code.Addresses
import Resumable.Proofs.Code.CborReading
import Resumable.Proofs.Code.Commands
import Resumable.Proofs.Code.JsonReading
import Resumable.Proofs.Code.Readings
import Resumable.Proofs.Code.Records
import Resumable.Proofs.Code.RoundTrip
import Resumable.Proofs.Code.Serializing
import Resumable.Proofs.Code.YamlReading
import Resumable.Proofs.Document.Aliases
import Resumable.Proofs.Document.Anchors
import Resumable.Proofs.Document.Circles
import Resumable.Proofs.Document.Copies
import Resumable.Proofs.Document.Forms
import Resumable.Proofs.Document.Reading
import Resumable.Proofs.Execution.Agreement
import Resumable.Proofs.Execution.Effects
import Resumable.Proofs.Execution.Paths
import Resumable.Proofs.Execution.Steps
import Resumable.Proofs.Execution.TextOrder
import Resumable.Proofs.Frames.Histories
import Resumable.Proofs.Json.Strings
import Resumable.Proofs.Json.Values
import Resumable.Proofs.Marks.Calls
import Resumable.Proofs.Marks.Independence
import Resumable.Proofs.Marks.Instructions
import Resumable.Proofs.Marks.Lockstep
import Resumable.Proofs.Marks.Warnings
import Resumable.Proofs.Meaning.Evaluation
import Resumable.Proofs.Meaning.Fragment
import Resumable.Proofs.Meaning.Operands
import Resumable.Proofs.Meaning.Preservation
import Resumable.Proofs.Meaning.Values
import Resumable.Proofs.Scope.Copying
import Resumable.Proofs.Scope.Placeholders
import Resumable.Proofs.Scope.Placement
import Resumable.Proofs.Scope.Redirection
import Resumable.Proofs.Scope.References
import Resumable.Proofs.Sorts.Acceptance
import Resumable.Proofs.Sorts.Compiling
import Resumable.Proofs.Sorts.Filling
import Resumable.Proofs.Sorts.Gaps
import Resumable.Proofs.Sorts.Positions
import Resumable.Proofs.Sorts.Refusals
import Resumable.Proofs.Sorts.Rendering
import Resumable.Proofs.Sorts.Walking
import Resumable.Proofs.Source.Constructors
import Resumable.Proofs.Source.Else
import Resumable.Proofs.Source.Grammar
import Resumable.Proofs.Source.Literals
import Resumable.Proofs.Source.Nearest
import Resumable.Proofs.Source.Opening
import Resumable.Proofs.Source.Printing
import Resumable.Proofs.Source.ReadBack
import Resumable.Proofs.Source.Spelling
import Resumable.Proofs.Source.Styles
import Resumable.Proofs.Source.Tokens
import Resumable.Proofs.Source.Unambiguous
import Resumable.Proofs.Splices.Compiling
import Resumable.Proofs.Splices.Copying
import Resumable.Proofs.Splices.Dissolving
import Resumable.Proofs.Splices.Instructions
import Resumable.Proofs.Splices.Rendering
import Resumable.Proofs.Splices.Searching
import Resumable.Proofs.Splices.Walking
import Resumable.Proofs.Temps.Newest
import Resumable.Proofs.Temps.Numbering
import Resumable.Proofs.Temps.Reads
import Resumable.Proofs.Temps.Results
import Resumable.Proofs.Text.Utf8
import Resumable.Proofs.Tree.Operands
import Resumable.Proofs.Tree.Replacement
import Resumable.Proofs.Walk.Appending
import Resumable.Proofs.Walk.Balance
import Resumable.Proofs.Walk.Calls
import Resumable.Proofs.Walk.Captures
import Resumable.Proofs.Walk.Controls
import Resumable.Proofs.Walk.Copying
import Resumable.Proofs.Walk.Events
import Resumable.Proofs.Walk.Faults
import Resumable.Proofs.Walk.Image
import Resumable.Proofs.Walk.Order
import Resumable.Proofs.Walk.Shapes
import Resumable.Proofs.Walk.Splits
import Resumable.Proofs.Walk.Statement
import Resumable.Proofs.Walk.Unsplit
import Resumable.Settings.Basic
import Resumable.Settings.Document
import Resumable.Settings.Files
import Resumable.Source.Layout
import Resumable.Source.Literal
import Resumable.Source.Precedence
import Resumable.Source.Printer
import Resumable.Text.Base64
import Resumable.Text.Bytes
import Resumable.Text.Category
import Resumable.Text.Columns
import Resumable.Text.Decimal
import Resumable.Text.Fold
import Resumable.Text.Lines
import Resumable.Text.Printable
import Resumable.Text.Quoted
import Resumable.Text.Script
import Resumable.Text.Template
import Resumable.Toml.Document
import Resumable.Toml.Literal
import Resumable.Toml.Syntax
import Resumable.Toml.Value
import Resumable.Tree.Document
import Resumable.Tree.Kind
import Resumable.Tree.Node
import Resumable.Tree.Replace
import Resumable.Tree.Splice
import Resumable.Tree.Traverse
import Resumable.Yaml.Comment
import Resumable.Yaml.Cursor
import Resumable.Yaml.Input
import Resumable.Yaml.Node
import Resumable.Yaml.Property
import Resumable.Yaml.Scalar
import Resumable.Yaml.Tag
import Resumable.Yaml.Timestamp
import Resumable.Yaml.Token
import Resumable.Yaml.Writer
