import UniformBlock.Limits
import UniformBlock.Text.Ascii
import UniformBlock.Text.Utf8
import UniformBlock.Source.Head
import UniformBlock.Number.Format
import UniformBlock.Number.Word
import UniformBlock.Number.Single
import UniformBlock.Number.Shortest
import UniformBlock.Number.ByteSize
import UniformBlock.Journal.Code
import UniformBlock.Fault
import UniformBlock.Reading
import UniformBlock.Number.Literal
import UniformBlock.Value
import UniformBlock.Argument
import UniformBlock.UniformType
import UniformBlock.Declaration
import UniformBlock.Block
import UniformBlock.Document
import UniformBlock.Source.Position
import UniformBlock.Source.Jump
import UniformBlock.Source.Lines
import UniformBlock.Text.Column
import UniformBlock.Json.Quoted
import UniformBlock.Json.Numeral
import UniformBlock.Json.Basic
import UniformBlock.Json.Library
import UniformBlock.Json.Reader
import UniformBlock.Block.Json
import UniformBlock.Journal.Level
import UniformBlock.Journal.Instant
import UniformBlock.Journal.Event
import UniformBlock.Journal.Store
import UniformBlock.Journal.Channel
import UniformBlock.Preferences
import UniformBlock.Session
import UniformBlock.Document.Report
import UniformBlock.Kernel.Directory
import UniformBlock.Kernel.File
import UniformBlock.Kernel
import UniformBlock.Toml.Lexeme
import UniformBlock.Toml.Basic
import UniformBlock.Toml.Scalar
import UniformBlock.Toml.Reader
import UniformBlock.Preferences.File
import UniformBlock.CommandLine
import UniformBlock.Main
import UniformBlock.Proofs.Layout
import UniformBlock.Proofs.Placement
import UniformBlock.Proofs.Addressing
import UniformBlock.Proofs.Grammar
import UniformBlock.Proofs.Reading
import UniformBlock.Proofs.Utf8
import UniformBlock.Proofs.Literal
import UniformBlock.Proofs.Longest
import UniformBlock.Proofs.Integer
import UniformBlock.Proofs.Boundary
import UniformBlock.Proofs.Value
import UniformBlock.Proofs.Argument
import UniformBlock.Proofs.Declaration
import UniformBlock.Proofs.Piece
import UniformBlock.Proofs.Decomposition
import UniformBlock.Proofs.Localisation
import UniformBlock.Proofs.Bounds
import UniformBlock.Proofs.Journal
import UniformBlock.Proofs.Staging
import UniformBlock.Proofs.Report
import UniformBlock.Proofs.Retention
import UniformBlock.Proofs.Budget
import UniformBlock.Proofs.Extraction
import UniformBlock.Proofs.Lines
import UniformBlock.Proofs.Position
import UniformBlock.Proofs.Moves
import UniformBlock.Proofs.Sliced
import UniformBlock.Proofs.Slices
import UniformBlock.Proofs.Cause
import UniformBlock.Proofs.Independence
import UniformBlock.Proofs.Refusal
import UniformBlock.Proofs.Tuple
import UniformBlock.Proofs.Uniform
import UniformBlock.Proofs.Numeral
import UniformBlock.Proofs.Json
import UniformBlock.Proofs.Library
import UniformBlock.Proofs.Storage
import UniformBlock.Proofs.Keyword
import UniformBlock.Proofs.Progress
import UniformBlock.Proofs.Protocol
import UniformBlock.Proofs.Metadata
import UniformBlock.Proofs.Alignment
import UniformBlock.Proofs.Truncation
import UniformBlock.Proofs.Excerpt
import UniformBlock.Proofs.Timestamp
import UniformBlock.Proofs.Framing
import UniformBlock.Proofs.Stride
import UniformBlock.Proofs.Rounding
import UniformBlock.Proofs.ByteSize
