import OpTree.Document.Build
import OpTree.Document.Normalize
import OpTree.Engine
import OpTree.Graph.Unfold
import OpTree.Host.Stock
import OpTree.Json.Reader
import OpTree.Json.Writer
import OpTree.Proofs.Check.Blame
import OpTree.Proofs.Check.Filtering
import OpTree.Proofs.Check.Soundness
import OpTree.Proofs.Check.Traversal
import OpTree.Proofs.Document.Agreement
import OpTree.Proofs.Document.Equality
import OpTree.Proofs.Document.Grammar
import OpTree.Proofs.Document.Interchange
import OpTree.Proofs.Document.Postorder
import OpTree.Proofs.Evaluation.Inlining
import OpTree.Proofs.Fold.Economy
import OpTree.Proofs.Fold.Idempotence
import OpTree.Proofs.Fold.Independence
import OpTree.Proofs.Fold.Soundness
import OpTree.Proofs.Fold.WellFormed
import OpTree.Proofs.Graph.Copying
import OpTree.Proofs.Labels.Layout
import OpTree.Proofs.Lexical.Busy
import OpTree.Proofs.Limits.Configuration
import OpTree.Proofs.Limits.Deadlines
import OpTree.Proofs.Limits.Size
import OpTree.Proofs.Limits.Statistics
import OpTree.Proofs.Session.Lookups
import OpTree.Proofs.Session.Overrides
