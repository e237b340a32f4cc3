import GlyphSearch.Binary.Format
import GlyphSearch.Binary.Single
import GlyphSearch.Binary.Double
import GlyphSearch.Decimal.Numeral
import GlyphSearch.Decimal.Shortest
import GlyphSearch.Decimal.Layout
import GlyphSearch.Text.Blank
import GlyphSearch.Text.Utf8
import GlyphSearch.Text.Ascii
import GlyphSearch.Text.Graphic
import GlyphSearch.Text.Quoted
import GlyphSearch.Json.Value
import GlyphSearch.Json.Text
import GlyphSearch.Json.Number
import GlyphSearch.Json.Writing
import GlyphSearch.Error
import GlyphSearch.Query.Parse
import GlyphSearch.Index.Distance
import GlyphSearch.Json.Record
import GlyphSearch.Dataset.Labels
import GlyphSearch.Index.Engine
import GlyphSearch.Index.Selection
import GlyphSearch.Dataset.Metadata
import GlyphSearch.Files.Path
import GlyphSearch.Files.Tree
import GlyphSearch.Index.Flat
import GlyphSearch.Dataset.Basic
import GlyphSearch.Query.Answer
import GlyphSearch.Files.Disk
import GlyphSearch.Gzip.Bits
import GlyphSearch.Gzip.Crc32
import GlyphSearch.Gzip.Huffman
import GlyphSearch.Gzip.Inflate
import GlyphSearch.Tar.Source
import GlyphSearch.Gzip.Member
import GlyphSearch.Tar.MemberPath
import GlyphSearch.Tar.Header
import GlyphSearch.Tar.Reader
import GlyphSearch.Tar.Extraction
import GlyphSearch.Storage.Backend
import GlyphSearch.Config.Basic
import GlyphSearch.Toml.Literal
import GlyphSearch.Toml.Value
import GlyphSearch.Toml.Document
import GlyphSearch.Config.File
import GlyphSearch.Config.Overrides
import GlyphSearch.Storage.Object
import GlyphSearch.Storage.Bucket
import GlyphSearch.Config.EnvironmentFile
import GlyphSearch.Log.Filter
import GlyphSearch.Log.Entry
import GlyphSearch.Dataset.Source
import GlyphSearch.Loading.Shared
import GlyphSearch.Service.Counters
import GlyphSearch.Service.State
import GlyphSearch.Service.Description
import GlyphSearch.Http.Form
import GlyphSearch.Http.Message
import GlyphSearch.Http.Handler
import GlyphSearch.Http.Router
import GlyphSearch.Http.Wire
import GlyphSearch.Program.Run
import GlyphSearch.Program.Ending
import GlyphSearch.Program.Inputs
import GlyphSearch.Main
import GlyphSearch.Proofs.Confinement
import GlyphSearch.Proofs.Ranking
import GlyphSearch.Proofs.Nearest
import GlyphSearch.Proofs.Consistency
import GlyphSearch.Proofs.Sharing
import GlyphSearch.Proofs.OneLoad
import GlyphSearch.Proofs.Reading
import GlyphSearch.Proofs.Visibility
import GlyphSearch.Proofs.Settling
import GlyphSearch.Proofs.Cascade
import GlyphSearch.Proofs.Scratch
import GlyphSearch.Proofs.Refusal
import GlyphSearch.Proofs.Inflating
import GlyphSearch.Proofs.Integrity
import GlyphSearch.Proofs.Documents
import GlyphSearch.Proofs.IndexFiles
import GlyphSearch.Proofs.Walking
import GlyphSearch.Proofs.RoundTrip
import GlyphSearch.Proofs.Operations
import GlyphSearch.Proofs.Lifetime
import GlyphSearch.Proofs.Lossy
import GlyphSearch.Proofs.Packing
import GlyphSearch.Proofs.Unpacking
import GlyphSearch.Proofs.Archiver
import GlyphSearch.Proofs.Copies
import GlyphSearch.Proofs.SameDataset
import GlyphSearch.Proofs.Grammar
import GlyphSearch.Proofs.IndexFormat
import GlyphSearch.Proofs.Digits
import GlyphSearch.Proofs.Rounding
import GlyphSearch.Proofs.Shortest
import GlyphSearch.Proofs.NumberText
import GlyphSearch.Proofs.Encoding
import GlyphSearch.Proofs.Escaping
import GlyphSearch.Proofs.Printing
import GlyphSearch.Proofs.FormFields
import GlyphSearch.Proofs.Requests
import GlyphSearch.Proofs.ResultText
import GlyphSearch.Proofs.Leaving
import GlyphSearch.Proofs.BodyLimit
import GlyphSearch.Proofs.Signs
import GlyphSearch.Proofs.Ties
import GlyphSearch.Proofs.Decimals
import GlyphSearch.Proofs.Tokens
import GlyphSearch.Proofs.Truncation
import GlyphSearch.Proofs.Words
import GlyphSearch.Proofs.Concatenation
import GlyphSearch.Proofs.TrailingZeros
import GlyphSearch.Proofs.Lines
import GlyphSearch.Proofs.Pieces
import GlyphSearch.Proofs.Parts
import GlyphSearch.Proofs.SafePaths
import GlyphSearch.Proofs.Reports
import GlyphSearch.Proofs.UsableSettings
import GlyphSearch.Proofs.Values
import GlyphSearch.Proofs.Overriding
import GlyphSearch.Proofs.Tallies
import GlyphSearch.Proofs.Magnitudes
import GlyphSearch.Proofs.ZeroVectors
import GlyphSearch.Proofs.MetadataFormat
import GlyphSearch.Proofs.Alike
import GlyphSearch.Proofs.Versions
