import CMakeManual.Document.Anchor
import CMakeManual.Document.CommandTable
import CMakeManual.Document.Json
import CMakeManual.Document.Listing
import CMakeManual.Document.Markdown
import CMakeManual.Document.Page
import CMakeManual.Document.Synopsis
import CMakeManual.Main
import CMakeManual.Manual.Analysis
import CMakeManual.Manual.Block
import CMakeManual.Manual.Callable
import CMakeManual.Manual.Documentation
import CMakeManual.Manual.Event
import CMakeManual.Manual.Keyword
import CMakeManual.Proofs.Document.AnchorClash
import CMakeManual.Proofs.Document.AnchorForm
import CMakeManual.Proofs.Document.AnchorNumbers
import CMakeManual.Proofs.Document.JsonGrammar
import CMakeManual.Proofs.Document.JsonReader
import CMakeManual.Proofs.Document.Lossless
import CMakeManual.Proofs.Document.Synopsis
import CMakeManual.Proofs.Document.SynopsisReading
import CMakeManual.Proofs.Manual.Balance
import CMakeManual.Proofs.Manual.CommentRuns
import CMakeManual.Proofs.Manual.Concatenation
import CMakeManual.Proofs.Manual.Congruence
import CMakeManual.Proofs.Manual.Indifference
import CMakeManual.Proofs.Manual.KeySpelling
import CMakeManual.Proofs.Manual.LineEnds
import CMakeManual.Proofs.Manual.ListValues
import CMakeManual.Proofs.Manual.Locality
import CMakeManual.Proofs.Manual.Location
import CMakeManual.Proofs.Manual.Meaning
import CMakeManual.Proofs.Manual.Outline
import CMakeManual.Proofs.Manual.Prose
import CMakeManual.Proofs.Manual.Ranges
import CMakeManual.Proofs.Manual.Requiredness
import CMakeManual.Proofs.Manual.Resolution
import CMakeManual.Proofs.Manual.Slots
import CMakeManual.Proofs.Manual.Tally
import CMakeManual.Proofs.Manual.TrailingComments
import CMakeManual.Proofs.Manual.Unfailing
import CMakeManual.Proofs.Run.AllOrNothing
import CMakeManual.Proofs.Run.Exclusion
import CMakeManual.Proofs.Run.Groups
import CMakeManual.Proofs.Run.Options
import CMakeManual.Proofs.Run.Paths
import CMakeManual.Proofs.Run.Requests
import CMakeManual.Proofs.Script.Agreement
import CMakeManual.Proofs.Script.BlankLines
import CMakeManual.Proofs.Script.Coverage
import CMakeManual.Proofs.Script.Cursor
import CMakeManual.Proofs.Script.FaultOrder
import CMakeManual.Proofs.Script.Grammar
import CMakeManual.Proofs.Script.Joining
import CMakeManual.Proofs.Script.Layout
import CMakeManual.Proofs.Script.LineEnds
import CMakeManual.Proofs.Script.Location
import CMakeManual.Proofs.Script.Nesting
import CMakeManual.Proofs.Script.Placement
import CMakeManual.Proofs.Script.Recovery
import CMakeManual.Proofs.Script.Reprinting
import CMakeManual.Proofs.Script.RoundTrip
import CMakeManual.Proofs.Script.Spelling
import CMakeManual.Proofs.Text.Bytes
import CMakeManual.Proofs.Text.LineEnds
import CMakeManual.Proofs.Text.Parts
import CMakeManual.Proofs.Text.Slice
import CMakeManual.Run.Arguments
import CMakeManual.Run.FileTree
import CMakeManual.Run.Log
import CMakeManual.Run.Program
import CMakeManual.Run.Settings
import CMakeManual.Script.Canonical
import CMakeManual.Script.Fault
import CMakeManual.Script.Lexeme
import CMakeManual.Script.Node
import CMakeManual.Script.Parse
import CMakeManual.Script.Position
import CMakeManual.Script.Scan
import CMakeManual.Script.Token
import CMakeManual.Text.Blank
import CMakeManual.Text.Decimal
import CMakeManual.Text.Escape
import CMakeManual.Text.Letters
import CMakeManual.Text.Lines
import CMakeManual.Text.Printable
import CMakeManual.Vocabulary.Entry
import CMakeManual.Vocabulary.Naming
import CMakeManual.Vocabulary.Role
