import Lox.Main
import Lox.Proofs.Syntax.Written
import Lox.Proofs.Syntax.AcceptStatement
import Lox.Proofs.Binding.Legal
import Lox.Proofs.Binding.Scoped
import Lox.Proofs.Machine.Scopes
import Lox.Proofs.Machine.Mirror
import Lox.Proofs.Machine.Safe
import Lox.Proofs.Machine.SafeSteps
import Lox.Proofs.Machine.Steady
import Lox.Proofs.Session.Calls
import Lox.Proofs.Session.Numbers
import Lox.Proofs.Session.Outcomes
import Lox.Proofs.Session.Alignment
import Lox.Proofs.Session.Discipline
import Lox.Proofs.Session.Pieces
import Lox.Proofs.Token.Tiling
import Lox.Proofs.Binding.Nested
import Lox.Proofs.Machine.Lineage
import Lox.Proofs.Machine.Upholds
import Lox.Proofs.Machine.UpholdsRun
import Lox.Proofs.Session.Super
import Lox.Proofs.Syntax.Behind
import Lox.Proofs.Session.Verdict
import Lox.Proofs.Session.Single
import Lox.Proofs.Session.Heap
import Lox.Proofs.Session.Assignments
import Lox.Proofs.Session.Construction
import Lox.Proofs.Binding.Reported
import Lox.Proofs.Session.Lowering
import Lox.Proofs.Syntax.Namings
import Lox.Proofs.Binding.Steps
import Lox.Proofs.Binding.Coherent
import Lox.Proofs.Token.Scans
import Lox.Proofs.Token.Identifiers
import Lox.Proofs.Document.Analysis
import Lox.Proofs.Document.Highlight
import Lox.Proofs.Document.Navigation
import Lox.Proofs.Document.Outline
import Lox.Proofs.Token.Excerpt
import Lox.Proofs.Syntax.Excerpt
import Lox.Proofs.Token.Lexicon
import Lox.Proofs.Syntax.SourceOrder
import Lox.Proofs.Syntax.Resumption
import Lox.Proofs.Syntax.Progress
import Lox.Proofs.Token.Spaced
import Lox.Proofs.Machine.Chains
import Lox.Proofs.Binding.Restored
import Lox.Proofs.Binding.Consistent
import Lox.Proofs.Document.Renaming
