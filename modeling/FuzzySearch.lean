import FuzzySearch.Arithmetic
import FuzzySearch.Bitap.Alphabet
import FuzzySearch.Bitap.Locate
import FuzzySearch.Bitap.Runs
import FuzzySearch.Bitap.Score
import FuzzySearch.Bitap.Window
import FuzzySearch.CommandLine.Arguments
import FuzzySearch.CommandLine.Command
import FuzzySearch.CommandLine.Display
import FuzzySearch.CommandLine.PlainText
import FuzzySearch.CommandLine.Run
import FuzzySearch.Decimal.Binary
import FuzzySearch.Decimal.Layout
import FuzzySearch.Decimal.Reading
import FuzzySearch.Decimal.Rounding
import FuzzySearch.Decimal.Scientific
import FuzzySearch.Decimal.Shortest
import FuzzySearch.Documents.FieldSearch
import FuzzySearch.Documents.TitleSearch
import FuzzySearch.Engine.Basic
import FuzzySearch.Engine.Search
import FuzzySearch.Error
import FuzzySearch.Files.FilePath
import FuzzySearch.Files.Folder
import FuzzySearch.Files.SnapshotFile
import FuzzySearch.Hit.Basic
import FuzzySearch.Hit.Report
import FuzzySearch.Hit.Score
import FuzzySearch.Index.Basic
import FuzzySearch.Index.Norm
import FuzzySearch.Index.Snapshot
import FuzzySearch.Json.Reading
import FuzzySearch.Json.Token
import FuzzySearch.Json.Writing
import FuzzySearch.Key
import FuzzySearch.Log.Configuration
import FuzzySearch.Log.Entry
import FuzzySearch.Log.Field
import FuzzySearch.Log.Level
import FuzzySearch.Log.Template
import FuzzySearch.Log.Timestamp
import FuzzySearch.Logic.Expression
import FuzzySearch.Logic.Query
import FuzzySearch.Main
import FuzzySearch.Marking.Marked
import FuzzySearch.Marking.Merge
import FuzzySearch.Marking.Snippet
import FuzzySearch.Matcher
import FuzzySearch.Options.Engine
import FuzzySearch.Options.Match
import FuzzySearch.Options.Reading
import FuzzySearch.Pattern.Fuzzy
import FuzzySearch.Pattern.Term
import FuzzySearch.Pattern.TermQuery
import FuzzySearch.Proofs.Bitap.Access
import FuzzySearch.Proofs.Bitap.Alignment
import FuzzySearch.Proofs.Bitap.Anywhere
import FuzzySearch.Proofs.Bitap.Bounds
import FuzzySearch.Proofs.Bitap.Exact
import FuzzySearch.Proofs.Bitap.Looks
import FuzzySearch.Proofs.Bitap.MarkedArea
import FuzzySearch.Proofs.Bitap.Matching
import FuzzySearch.Proofs.Bitap.MaximalRuns
import FuzzySearch.Proofs.Bitap.Ranges
import FuzzySearch.Proofs.Bitap.Row
import FuzzySearch.Proofs.Bitap.Rows
import FuzzySearch.Proofs.Bitap.Runs
import FuzzySearch.Proofs.Bitap.Search
import FuzzySearch.Proofs.Bitap.Spans
import FuzzySearch.Proofs.Bitap.Threshold
import FuzzySearch.Proofs.Bitap.Twin
import FuzzySearch.Proofs.Bitap.Verbatim
import FuzzySearch.Proofs.Bitap.View
import FuzzySearch.Proofs.Bitap.Windows
import FuzzySearch.Proofs.Bitap.Words
import FuzzySearch.Proofs.Calls
import FuzzySearch.Proofs.CommandLine.Snapshot
import FuzzySearch.Proofs.Decimal.Endless
import FuzzySearch.Proofs.Decimal.Fields
import FuzzySearch.Proofs.Decimal.Finite
import FuzzySearch.Proofs.Decimal.Magnitude
import FuzzySearch.Proofs.Decimal.Nearest
import FuzzySearch.Proofs.Decimal.Neutral
import FuzzySearch.Proofs.Decimal.RoundTrip
import FuzzySearch.Proofs.Decimal.Shortest
import FuzzySearch.Proofs.Documents.FieldSearch
import FuzzySearch.Proofs.EditDistance
import FuzzySearch.Proofs.EditScript
import FuzzySearch.Proofs.Engine.Bounds
import FuzzySearch.Proofs.Engine.Calls
import FuzzySearch.Proofs.Engine.Disjunction
import FuzzySearch.Proofs.Engine.Exchange
import FuzzySearch.Proofs.Engine.Extraction
import FuzzySearch.Proofs.Engine.Failure
import FuzzySearch.Proofs.Engine.Maintenance
import FuzzySearch.Proofs.Engine.Matches
import FuzzySearch.Proofs.Engine.Origin
import FuzzySearch.Proofs.Engine.Ranking
import FuzzySearch.Proofs.Engine.Removal
import FuzzySearch.Proofs.Engine.Results
import FuzzySearch.Proofs.Engine.Snapshot
import FuzzySearch.Proofs.Engine.Spans
import FuzzySearch.Proofs.Engine.Success
import FuzzySearch.Proofs.Engine.Threshold
import FuzzySearch.Proofs.Files.Folder
import FuzzySearch.Proofs.Files.SnapshotFile
import FuzzySearch.Proofs.Index.Appending
import FuzzySearch.Proofs.Index.ElementNumbers
import FuzzySearch.Proofs.Index.FirstDocument
import FuzzySearch.Proofs.Index.Growth
import FuzzySearch.Proofs.Index.Layout
import FuzzySearch.Proofs.Index.Numbering
import FuzzySearch.Proofs.Index.Removal
import FuzzySearch.Proofs.Index.RoundTrip
import FuzzySearch.Proofs.Index.Storable
import FuzzySearch.Proofs.Index.Upkeep
import FuzzySearch.Proofs.Json.Datum
import FuzzySearch.Proofs.Json.Floats
import FuzzySearch.Proofs.Json.Numbers
import FuzzySearch.Proofs.Json.RoundTrip
import FuzzySearch.Proofs.Json.Texts
import FuzzySearch.Proofs.Json.Written
import FuzzySearch.Proofs.Key
import FuzzySearch.Proofs.KeyWeights
import FuzzySearch.Proofs.Log.Redaction
import FuzzySearch.Proofs.Logic.Constraints
import FuzzySearch.Proofs.Logic.Evaluation
import FuzzySearch.Proofs.Logic.Faults
import FuzzySearch.Proofs.Logic.Grammar
import FuzzySearch.Proofs.Logic.Meaning
import FuzzySearch.Proofs.Logic.Rematch
import FuzzySearch.Proofs.Marking.Marked
import FuzzySearch.Proofs.Marking.Merge
import FuzzySearch.Proofs.Marking.Snippet
import FuzzySearch.Proofs.Pattern.Anywhere
import FuzzySearch.Proofs.Pattern.BareWord
import FuzzySearch.Proofs.Pattern.Bounds
import FuzzySearch.Proofs.Pattern.Chunks
import FuzzySearch.Proofs.Pattern.Inclusion
import FuzzySearch.Proofs.Pattern.Meaning
import FuzzySearch.Proofs.Pattern.Score
import FuzzySearch.Proofs.Pattern.Spans
import FuzzySearch.Proofs.Pattern.Spelling
import FuzzySearch.Proofs.Pattern.Threshold
import FuzzySearch.Proofs.Pattern.Tokens
import FuzzySearch.Proofs.Pattern.Verbatim
import FuzzySearch.Proofs.Span
import FuzzySearch.Proofs.Text.Case
import FuzzySearch.Proofs.Text.Occurrence
import FuzzySearch.Proofs.Value.Boxing
import FuzzySearch.Proofs.Value.Entries
import FuzzySearch.Proofs.Value.Walk
import FuzzySearch.Settings.Basic
import FuzzySearch.Settings.Definitions
import FuzzySearch.Span
import FuzzySearch.Text.Blank
import FuzzySearch.Text.Case
import FuzzySearch.Text.CaseTable
import FuzzySearch.Text.Han
import FuzzySearch.Text.Occurrence
import FuzzySearch.Text.PrintableTable
import FuzzySearch.Text.Quoted
import FuzzySearch.Text.Split
import FuzzySearch.Text.Utf8
import FuzzySearch.Value.Basic
import FuzzySearch.Value.Number
import FuzzySearch.Value.Path
import FuzzySearch.Value.Size
import FuzzySearch.Value.Written
