import Lox.Token
import Lox.Diagnostic
import Lox.Decimal.Basic
import Lox.Decimal.Nearest
import Lox.Decimal.Shortest
import Lox.Number
import Lox.Value
import Lox.Piece
import Lox.Piece.Cover
import Lox.Token.Scan
import Lox.Tree
import Lox.Tree.Dump
import Lox.Parser.Reply
import Lox.Parser.Expression
import Lox.Parser.Statement
import Lox.Program
import Lox.SharedList.Store
import Lox.SharedList.Shelf
import Lox.Environment
import Lox.Sink
import Lox.Event
import Lox.Operator
import Lox.Evaluation
import Lox.Execution
import Lox.Session
import Lox.Utf8
import Lox.CommandLine.Arguments
import Lox.CommandLine.Folder
import Lox.CommandLine.Command
import Lox.Main
import Lox.Proofs.Grammar
import Lox.Proofs.Grammar.Basic
import Lox.Proofs.Parser.Completeness
import Lox.Proofs.Parser.Soundness
import Lox.Proofs.Grammar.Dangling
import Lox.Proofs.Parser.Exactness
import Lox.Proofs.Environment.Mirror
import Lox.Proofs.Lockstep
import Lox.Proofs.Execution.Refinement
import Lox.Proofs.Execution.Bound
import Lox.Proofs.Relabel
import Lox.Proofs.Stack.Correspondence
import Lox.Proofs.Execution.CountingLoop
import Lox.Proofs.Parser.Naturality
import Lox.Proofs.Piece.Seam
import Lox.Proofs.Token.Lines
import Lox.Proofs.Parser.Seam
import Lox.Proofs.Stack.Sequence
import Lox.Proofs.Session.Pieces
import Lox.Proofs.Lexicon
import Lox.Proofs.Lexicon.Units
import Lox.Proofs.Lexicon.Scan
import Lox.Proofs.Parser.Shape
import Lox.Proofs.Execution.Origin
import Lox.Proofs.Execution.Operators
import Lox.Proofs.Parser.Locality
import Lox.Proofs.Parser.Recovery
import Lox.Proofs.Parser.Segments
import Lox.Proofs.Execution.Output
import Lox.Proofs.Session.Stages
import Lox.Proofs.Session.History
import Lox.Proofs.Execution.Nodes
import Lox.Proofs.Token.Places
import Lox.Proofs.Session.Diagnostics
import Lox.Proofs.Stack.Footprint
import Lox.Proofs.Execution.Discipline
import Lox.Proofs.SharedList.Counts
import Lox.Proofs.Environment.Aliasing
import Lox.Proofs.Environment.Handles
import Lox.Proofs.Cutoff
import Lox.Proofs.Execution.Moments
import Lox.Proofs.Session.Limit
import Lox.Proofs.Execution.Visibility
import Lox.Proofs.Execution.Shielding
import Lox.Proofs.SharedList.Suffix
import Lox.Proofs.SharedList.Visits
import Lox.Proofs.SharedList.Histories
import Lox.Proofs.Grammar.Phrases
import Lox.Proofs.Parser.Prediction
import Lox.Proofs.Parser.FirstError
import Lox.Proofs.Lexicon.Rendering
import Lox.Proofs.Token.Seam
import Lox.Proofs.Lexicon.Lines
import Lox.Proofs.Parser.InvalidTargets
import Lox.Proofs.SharedList.Reclaim
import Lox.Proofs.Decimal.ReadsBack
import Lox.Proofs.Number.Bits
import Lox.Proofs.Number.RoundTrip
import Lox.Proofs.Parser.InPlace
import Lox.Proofs.Parser.Pace
import Lox.Proofs.Parser.Progress
import Lox.Proofs.Parser.MissingEnd
import Lox.Proofs.Tree.Form
import Lox.Proofs.Tree.Unambiguous
import Lox.Proofs.Session.Concatenation
