import Sexp.Text.Characters
import Sexp.Scope.Workspace
import Sexp.Symbol.Pool
import Sexp.Value.Basic
import Sexp.Value.Equality
import Sexp.Value.Printer
import Sexp.Value.Inspect
import Sexp.Source.Steps
import Sexp.Eval.Session
import Sexp.Shell.Command
import Sexp.Main
import Sexp.Proofs.Lexical
import Sexp.Proofs.Text.Encoding
import Sexp.Proofs.Text.UpperCase
import Sexp.Proofs.Grammar
import Sexp.Proofs.Classification
import Sexp.Proofs.Outcomes
import Sexp.Proofs.RoundTrip
import Sexp.Proofs.Depth
import Sexp.Proofs.Termination
import Sexp.Proofs.CallProtocol
import Sexp.Proofs.Failures
import Sexp.Proofs.Output
import Sexp.Proofs.Scoping
import Sexp.Proofs.Interleaving
import Sexp.Proofs.Extension
import Sexp.Proofs.Lines
import Sexp.Proofs.Canonical
import Sexp.Proofs.Equality
import Sexp.Proofs.Truncation
import Sexp.Proofs.Reachability
import Sexp.Proofs.Scripts
import Sexp.Proofs.Literals
import Sexp.Proofs.Strict
import Sexp.Proofs.Templates
import Sexp.Proofs.ShellCalls
import Sexp.Proofs.Concatenation
import Sexp.Proofs.LetterCase
import Sexp.Proofs.Weight
import Sexp.Proofs.Trimming
import Sexp.Proofs.Interning
