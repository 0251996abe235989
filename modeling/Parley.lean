import Parley.Files.Tree
import Parley.Golden.Run
import Parley.Main
import Parley.Proofs.Lint.Canonical
import Parley.Proofs.Schema.Fingerprint
import Parley.Proofs.Token.Tiling
import Parley.Proofs.Grammar.Continuation
import Parley.Proofs.Lint.Converge
import Parley.Proofs.Lint.Places
import Parley.Proofs.Recovery.Cascade
import Parley.Proofs.Recovery.Extension
import Parley.Proofs.Token.Line
import Parley.Proofs.Token.Spaced
import Parley.Proofs.Analysis.Order
import Parley.Proofs.Analysis.Flow
import Parley.Proofs.Command.Tally
import Parley.Proofs.Text.LineIndex
import Parley.Proofs.Token.Integer
import Parley.Proofs.Lint.Suggestion
import Parley.Proofs.Lint.Advice
import Parley.Proofs.Lint.Untargeted
import Parley.Proofs.Schema.Parentheses
import Parley.Proofs.Artifact.Comment
import Parley.Proofs.Artifact.Members
import Parley.Proofs.Command.Search
import Parley.Proofs.Golden.Headers
import Parley.Proofs.Golden.Layout
import Parley.Proofs.Command.Report
import Parley.Proofs.Analysis.Namespace
import Parley.Proofs.Token.Word
import Parley.Proofs.Report.Mark
import Parley.Proofs.Golden.Verdict
import Parley.Proofs.Text.Respelling
