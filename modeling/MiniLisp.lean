import MiniLisp.Main
import MiniLisp.Session.Setup
import MiniLisp.Proofs.Reader.Scan
import MiniLisp.Proofs.Eval.Cutoff
import MiniLisp.Proofs.Program.FailingOutput
import MiniLisp.Proofs.Cli.Repl
import MiniLisp.Proofs.Eval.Footprint
import MiniLisp.Proofs.Session.Frames
import MiniLisp.Proofs.Session.Identity
import MiniLisp.Proofs.Eval.Isolation
import MiniLisp.Proofs.Program.Composition
import MiniLisp.Proofs.Session.Heap
import MiniLisp.Proofs.Number.Doubles
import MiniLisp.Proofs.Number.Shortest
import MiniLisp.Proofs.Number.RoundTrip
import MiniLisp.Proofs.Eval.Values
import MiniLisp.Proofs.Eval.Primitives
import MiniLisp.Proofs.Reader.Written
import MiniLisp.Proofs.Value.Equality
import MiniLisp.Proofs.Value.Textual
import MiniLisp.Proofs.Value.Written
import MiniLisp.Proofs.Program.Textual
import MiniLisp.Proofs.Session.ReadBack
import MiniLisp.Proofs.Reader.RoundTrip
import MiniLisp.Proofs.Eval.Calls
import MiniLisp.Proofs.Expr.Faults
import MiniLisp.Proofs.Expr.Rules
import MiniLisp.Proofs.Expr.Source
import MiniLisp.Proofs.Store.Listing
import MiniLisp.Proofs.Text.ByteOrder
import MiniLisp.Proofs.Session.Scopes
import MiniLisp.Proofs.Error.Snippet
import MiniLisp.Proofs.Cli.Loading
import MiniLisp.Proofs.Cli.Outcome
import MiniLisp.Proofs.Number.Grammar
import MiniLisp.Proofs.Reader.Words
import MiniLisp.Proofs.Reader.OnePass
import MiniLisp.Proofs.Expr.Nesting
import MiniLisp.Proofs.Program.Nesting
import MiniLisp.Proofs.Store.Growth
import MiniLisp.Proofs.Eval.Levels
import MiniLisp.Proofs.Prelude.Functions
import MiniLisp.Proofs.Prelude.Calls
import MiniLisp.Proofs.Prelude.Folds
import MiniLisp.Proofs.Prelude.Maps
import MiniLisp.Proofs.Value.Lists
import MiniLisp.Proofs.Value.Arithmetic
import MiniLisp.Proofs.Cli.Options
import MiniLisp.Proofs.Limits
import MiniLisp.Proofs.Value.Comparison
import MiniLisp.Proofs.Prelude.Comparisons
