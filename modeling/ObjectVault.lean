import ObjectVault.Archive.Access
import ObjectVault.Archive.Basic
import ObjectVault.Archive.Contents
import ObjectVault.Archive.Error
import ObjectVault.Archive.Manifest
import ObjectVault.Bytes
import ObjectVault.Checksum.Basic
import ObjectVault.Checksum.Sha256
import ObjectVault.Cipher.Aes
import ObjectVault.Cipher.Gcm
import ObjectVault.Cipher.KeyDerivation
import ObjectVault.Cipher.Sealed
import ObjectVault.Codec.Converter
import ObjectVault.Codec.Default
import ObjectVault.Codec.Error
import ObjectVault.Codec.Tsv
import ObjectVault.Command.Arguments
import ObjectVault.Command.Error
import ObjectVault.Command.Form
import ObjectVault.Command.Rule
import ObjectVault.Command.Run
import ObjectVault.Command.Signature
import ObjectVault.Command.World
import ObjectVault.Container.Entry
import ObjectVault.Container.Extension
import ObjectVault.Container.Fault
import ObjectVault.Container.Header
import ObjectVault.Container.Reader
import ObjectVault.Container.Sparse
import ObjectVault.Decimal.Float
import ObjectVault.Decimal.Integer
import ObjectVault.Decimal.Nearest
import ObjectVault.Decimal.Shortest
import ObjectVault.Directory.Basic
import ObjectVault.Directory.Path
import ObjectVault.Host
import ObjectVault.Json.Basic
import ObjectVault.Json.Diagnosis
import ObjectVault.Json.Fault
import ObjectVault.Json.Number
import ObjectVault.Json.Reader
import ObjectVault.Json.Writer
import ObjectVault.Launch.Flags
import ObjectVault.Launch.Program
import ObjectVault.Launch.Reach
import ObjectVault.Launch.Usage
import ObjectVault.Main
import ObjectVault.Proofs.Accepting
import ObjectVault.Proofs.Asking
import ObjectVault.Proofs.Asserting
import ObjectVault.Proofs.BareOrQuoted
import ObjectVault.Proofs.BoundNames
import ObjectVault.Proofs.Browsing
import ObjectVault.Proofs.CallOrder
import ObjectVault.Proofs.Choosing
import ObjectVault.Proofs.ColumnTypes
import ObjectVault.Proofs.Commands
import ObjectVault.Proofs.CompactText
import ObjectVault.Proofs.Converters
import ObjectVault.Proofs.Digits
import ObjectVault.Proofs.DocumentLines
import ObjectVault.Proofs.Effects
import ObjectVault.Proofs.EntryStream
import ObjectVault.Proofs.Exchange
import ObjectVault.Proofs.Extending
import ObjectVault.Proofs.FailedCommands
import ObjectVault.Proofs.FileNames
import ObjectVault.Proofs.Files
import ObjectVault.Proofs.FloatText
import ObjectVault.Proofs.FolderListing
import ObjectVault.Proofs.FrameShape
import ObjectVault.Proofs.Grammar
import ObjectVault.Proofs.HeaderFields
import ObjectVault.Proofs.Honesty
import ObjectVault.Proofs.ImportingNames
import ObjectVault.Proofs.Issues
import ObjectVault.Proofs.KeptKeys
import ObjectVault.Proofs.KeptNames
import ObjectVault.Proofs.Literals
import ObjectVault.Proofs.LogFile
import ObjectVault.Proofs.LogReading
import ObjectVault.Proofs.Logging
import ObjectVault.Proofs.Looking
import ObjectVault.Proofs.ManifestText
import ObjectVault.Proofs.NewNames
import ObjectVault.Proofs.Opening
import ObjectVault.Proofs.Overlaying
import ObjectVault.Proofs.Overwriting
import ObjectVault.Proofs.OwnFile
import ObjectVault.Proofs.PinnedValues
import ObjectVault.Proofs.Places
import ObjectVault.Proofs.PlainPath
import ObjectVault.Proofs.PlanEffects
import ObjectVault.Proofs.PlanResults
import ObjectVault.Proofs.Plans
import ObjectVault.Proofs.PrettyText
import ObjectVault.Proofs.Provenance
import ObjectVault.Proofs.QuotedText
import ObjectVault.Proofs.Ranking
import ObjectVault.Proofs.ReaderSteps
import ObjectVault.Proofs.RecordText
import ObjectVault.Proofs.Refiling
import ObjectVault.Proofs.Rendering
import ObjectVault.Proofs.Replacing
import ObjectVault.Proofs.Rereading
import ObjectVault.Proofs.RightArguments
import ObjectVault.Proofs.Rounding
import ObjectVault.Proofs.SameFolder
import ObjectVault.Proofs.Saving
import ObjectVault.Proofs.Scoring
import ObjectVault.Proofs.ScriptRuns
import ObjectVault.Proofs.Sealing
import ObjectVault.Proofs.Serving
import ObjectVault.Proofs.ShortestDigits
import ObjectVault.Proofs.SortedMap
import ObjectVault.Proofs.Spacing
import ObjectVault.Proofs.Splitting
import ObjectVault.Proofs.Standing
import ObjectVault.Proofs.StoredFrame
import ObjectVault.Proofs.Storing
import ObjectVault.Proofs.StringLiteral
import ObjectVault.Proofs.Subfolders
import ObjectVault.Proofs.TableDocument
import ObjectVault.Proofs.TableReading
import ObjectVault.Proofs.TableRecords
import ObjectVault.Proofs.Touching
import ObjectVault.Proofs.Trimming
import ObjectVault.Proofs.TwoFormats
import ObjectVault.Proofs.TypingBack
import ObjectVault.Proofs.Undoing
import ObjectVault.Proofs.Unmatched
import ObjectVault.Proofs.Validating
import ObjectVault.Proofs.ValueText
import ObjectVault.Proofs.Variables
import ObjectVault.Proofs.WholeKeys
import ObjectVault.Proofs.WholeNumber
import ObjectVault.Proofs.WordLines
import ObjectVault.Proofs.WorkingFolder
import ObjectVault.Proofs.WrittenArguments
import ObjectVault.Report.Log
import ObjectVault.Report.Metadata
import ObjectVault.Scope.Basic
import ObjectVault.Scope.View
import ObjectVault.Session.Basic
import ObjectVault.Session.Run
import ObjectVault.Settings.Basic
import ObjectVault.Settings.File
import ObjectVault.Shell.Basic
import ObjectVault.Shell.Display
import ObjectVault.Shell.Line
import ObjectVault.Shell.Literal
import ObjectVault.Shell.Script
import ObjectVault.Storage.Basic
import ObjectVault.Storage.Error
import ObjectVault.Table
import ObjectVault.Text.Blank
import ObjectVault.Text.Letter
import ObjectVault.Text.Likeness
import ObjectVault.Text.Utf8
import ObjectVault.Time.Calendar
import ObjectVault.Toml.Fault
import ObjectVault.Toml.Moment
import ObjectVault.Toml.Node
import ObjectVault.Toml.Number
import ObjectVault.Toml.Quoted
import ObjectVault.Toml.Reader
import ObjectVault.Toml.Tree
import ObjectVault.Value.Basic
import ObjectVault.Value.Json
import ObjectVault.Value.Tagged
import ObjectVault.Zstd.Bits
import ObjectVault.Zstd.Block
import ObjectVault.Zstd.Frame
import ObjectVault.Zstd.Fse
import ObjectVault.Zstd.Huffman
import ObjectVault.Zstd.Literals
import ObjectVault.Zstd.Sequences
import ObjectVault.Zstd.Xxh64
