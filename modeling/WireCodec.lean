import WireCodec.Batch.Compile
import WireCodec.Batch.Report
import WireCodec.Batch.Selection
import WireCodec.CommandLine.Command
import WireCodec.CommandLine.Options
import WireCodec.CommandLine.Run
import WireCodec.Derive.Codec
import WireCodec.Derive.Error
import WireCodec.Derive.Grammar.Definition
import WireCodec.Derive.Grammar.Expression
import WireCodec.Derive.Grammar.Field
import WireCodec.Derive.Grammar.Parameter
import WireCodec.Derive.Grammar.Parts
import WireCodec.Derive.Grammar.Pattern
import WireCodec.Derive.Grammar.Reader
import WireCodec.Derive.Grammar.Statement
import WireCodec.Derive.Grammar.Type
import WireCodec.Derive.Item
import WireCodec.Derive.Lexer
import WireCodec.Derive.Options
import WireCodec.Derive.Parser
import WireCodec.Derive.Token
import WireCodec.Document.Basic
import WireCodec.Document.Json
import WireCodec.Document.Toml.Read
import WireCodec.Document.Toml.Tree
import WireCodec.Document.Toml.Write
import WireCodec.Document.Yaml.Read
import WireCodec.Document.Yaml.Scalar
import WireCodec.Files.Access
import WireCodec.Files.Path
import WireCodec.Files.Tree
import WireCodec.Generator.Error
import WireCodec.Generator.Run
import WireCodec.Layout.Group
import WireCodec.Length.Expr
import WireCodec.Length.Parser
import WireCodec.Length.Token
import WireCodec.Main
import WireCodec.NameSet
import WireCodec.NameTable
import WireCodec.Procedure.Codec
import WireCodec.Procedure.Step
import WireCodec.Proofs.Decoding.FieldReader
import WireCodec.Proofs.Decoding.Refinement
import WireCodec.Proofs.Decoding.Steps
import WireCodec.Proofs.Encoding.Conformance
import WireCodec.Proofs.Encoding.Faults
import WireCodec.Proofs.Encoding.Steps
import WireCodec.Proofs.Except
import WireCodec.Proofs.Layout.Cut
import WireCodec.Proofs.Length.Evaluation
import WireCodec.Proofs.RoundTrip.Prefix
import WireCodec.Proofs.RoundTrip.Record
import WireCodec.Proofs.RoundTrip.Stream
import WireCodec.Proofs.RoundTrip.Value
import WireCodec.Proofs.Schema.Order
import WireCodec.Record.Value
import WireCodec.Run.Decode
import WireCodec.Run.Encode
import WireCodec.Run.Error
import WireCodec.Run.Scratch
import WireCodec.Scalar.Basic
import WireCodec.Scalar.Kind
import WireCodec.Schema.Declaration
import WireCodec.Schema.Entry
import WireCodec.Schema.Error
import WireCodec.Schema.Format
import WireCodec.Schema.Load
import WireCodec.Schema.StructType
import WireCodec.Settings.Basic
import WireCodec.Settings.Read
import WireCodec.Settings.Write
import WireCodec.Source.Codec
import WireCodec.Source.File
import WireCodec.Source.Lines
import WireCodec.Source.Spelling
import WireCodec.Text.Blank
import WireCodec.Text.Digits
import WireCodec.Text.Letter
import WireCodec.Text.Printable
import WireCodec.Text.Quoted
import WireCodec.Text.Reader
import WireCodec.Text.Split
import WireCodec.Text.Word
import WireCodec.Typing.Alias
import WireCodec.Typing.Error
import WireCodec.Typing.Parser
import WireCodec.Typing.TypeExpr
import WireCodec.Typing.WireType
import WireCodec.Proofs.Scope.Rules
import WireCodec.Proofs.Scope.Compiled
import WireCodec.Proofs.Decoding.Memory
import WireCodec.Proofs.Decoding.Places
import WireCodec.Proofs.Schema.WellFormed
import WireCodec.Proofs.Batch.Delivery
import WireCodec.Proofs.Length.Grammar
import WireCodec.Proofs.Length.Lexing
import WireCodec.Proofs.Length.Parsing
import WireCodec.Proofs.Length.Printing
import WireCodec.Proofs.Aliases.Renaming
import WireCodec.Proofs.Aliases.Transparency
import WireCodec.Proofs.Layout.Partition
import WireCodec.Proofs.Source.Lines
import WireCodec.Proofs.Source.Names
import WireCodec.Proofs.Source.Plain
import WireCodec.Proofs.Schema.Parsed
import WireCodec.Proofs.Aliases.Reached
import WireCodec.Proofs.Source.File
import WireCodec.Proofs.Settings.Valid
import WireCodec.Proofs.Aliases.Spelling
import WireCodec.Proofs.Source.Items
import WireCodec.Proofs.Derive.Names
import WireCodec.Proofs.Derive.Words
import WireCodec.Proofs.Source.Arithmetic
import WireCodec.Proofs.Source.Contents
import WireCodec.Proofs.Source.Identifier
import WireCodec.Proofs.Source.Loads
import WireCodec.Proofs.Source.Members
import WireCodec.Proofs.Source.Stores
import WireCodec.Proofs.Target.Evaluation
import WireCodec.Proofs.Target.Expression
import WireCodec.Proofs.Target.Reading
import WireCodec.Proofs.Target.Statement
import WireCodec.Proofs.Target.Token
import WireCodec.Proofs.Aliases.Chain
import WireCodec.Proofs.Schema.Admission
import WireCodec.Proofs.Files.Changes
import WireCodec.Proofs.Generator.Agreement
import WireCodec.Proofs.Derive.Representations
import WireCodec.Proofs.Length.Exactness
import WireCodec.Proofs.Encoding.Atomic
import WireCodec.Proofs.RoundTrip.Sizes
import WireCodec.Proofs.Decoding.PlannedReads
import WireCodec.Proofs.Typing.Grammar
import WireCodec.Proofs.Typing.Parsing
import WireCodec.Proofs.CommandLine.Types
import WireCodec.Proofs.Source.Brackets
import WireCodec.Proofs.Source.Nesting
import WireCodec.Proofs.Source.Framing
import WireCodec.Proofs.Length.Positions
import WireCodec.Proofs.Length.Refusals
import WireCodec.Proofs.Length.Culprits
