import LineComment.Batch
import LineComment.Bytes
import LineComment.CommandLine.Arguments
import LineComment.CommandLine.Parser
import LineComment.CommandLine.Run
import LineComment.Error
import LineComment.Files.Change
import LineComment.Files.System
import LineComment.Files.Tree
import LineComment.Files.Walk
import LineComment.Job
import LineComment.Language
import LineComment.LineEdit
import LineComment.Path
import LineComment.Proofs.Attribution
import LineComment.Proofs.Batch.Counterpart
import LineComment.Proofs.Batch.Edit
import LineComment.Proofs.Batch.Lines
import LineComment.Proofs.Batch.Markers
import LineComment.Proofs.Batch.Ready
import LineComment.Proofs.Batch.Renaming
import LineComment.Proofs.Batch.Sequence
import LineComment.Proofs.CommandLine.Accepted
import LineComment.Proofs.CommandLine.Words
import LineComment.Proofs.Comment
import LineComment.Proofs.Commit
import LineComment.Proofs.Edits
import LineComment.Proofs.Encoding
import LineComment.Proofs.Faults
import LineComment.Proofs.Files.Correspondence
import LineComment.Proofs.Files.Exchange
import LineComment.Proofs.Files.Names
import LineComment.Proofs.Files.Persistence
import LineComment.Proofs.Files.Renaming
import LineComment.Proofs.Files.Resemblance
import LineComment.Proofs.Files.System
import LineComment.Proofs.Files.Tree
import LineComment.Proofs.Files.Walk
import LineComment.Proofs.LabelSearch
import LineComment.Proofs.LabelSections
import LineComment.Proofs.Language.Configured
import LineComment.Proofs.Language.Consistency
import LineComment.Proofs.Language.Frame
import LineComment.Proofs.Language.Insert
import LineComment.Proofs.Language.Parsed
import LineComment.Proofs.Line
import LineComment.Proofs.LineEdit
import LineComment.Proofs.LineRange
import LineComment.Proofs.Lists
import LineComment.Proofs.LowerCase
import LineComment.Proofs.Modes
import LineComment.Proofs.Moments
import LineComment.Proofs.Output
import LineComment.Proofs.Precedence
import LineComment.Proofs.Preview
import LineComment.Proofs.Quiet
import LineComment.Proofs.Replacement.Atomic
import LineComment.Proofs.Replacement.Counterpart
import LineComment.Proofs.Replacement.CrashSafe
import LineComment.Proofs.Replacement.Exposure
import LineComment.Proofs.Replacement.Intrusion
import LineComment.Proofs.Replacement.Run
import LineComment.Proofs.Replacement.Seat
import LineComment.Proofs.Replacement.Site
import LineComment.Proofs.Replacement.Stages
import LineComment.Proofs.Replacement.Writing
import LineComment.Proofs.Rerun
import LineComment.Proofs.Script
import LineComment.Proofs.Selection
import LineComment.Proofs.Session
import LineComment.Proofs.Stages
import LineComment.Proofs.Stream
import LineComment.Proofs.TargetList
import LineComment.Proofs.Uncomment
import LineComment.Proofs.Undo
import LineComment.Proofs.Utf8.Reading
import LineComment.Proofs.Utf8.Spelling
import LineComment.Proofs.Utf8.Validity
import LineComment.Replacement
import LineComment.Scan
import LineComment.Script
import LineComment.Selection
import LineComment.Settings
import LineComment.Text
import LineComment.Text.Utf8
import LineComment.Toml.Document
import LineComment.Toml.Number
import LineComment.Toml.Quoted
import LineComment.Toml.Scanner
import LineComment.Toml.Value
