import Wdl.Ast.Annotation
import Wdl.Ast.Plain
import Wdl.Proofs.Agreement
import Wdl.Proofs.Arrangements
import Wdl.Proofs.Assembly
import Wdl.Proofs.Branches
import Wdl.Proofs.Caching
import Wdl.Proofs.CommandText
import Wdl.Proofs.Candidates
import Wdl.Proofs.Comparison
import Wdl.Proofs.Contexts
import Wdl.Proofs.Coordinates
import Wdl.Proofs.Displacement
import Wdl.Proofs.Documents
import Wdl.Proofs.ErrorSpans
import Wdl.Proofs.Escapes
import Wdl.Proofs.Excerpts
import Wdl.Proofs.Fields
import Wdl.Proofs.Guarantees
import Wdl.Proofs.Handlers
import Wdl.Proofs.Keys
import Wdl.Proofs.Limits
import Wdl.Proofs.MetaNumbers
import Wdl.Proofs.Namespaces
import Wdl.Proofs.Offsets
import Wdl.Proofs.Placement
import Wdl.Proofs.Positions
import Wdl.Proofs.Preambles
import Wdl.Proofs.Productions
import Wdl.Proofs.Pruning
import Wdl.Proofs.Rebuilding
import Wdl.Proofs.Replay
import Wdl.Proofs.Reservations
import Wdl.Proofs.RoundTrips
import Wdl.Proofs.Sameness
import Wdl.Proofs.Sessions
import Wdl.Proofs.Shifting
import Wdl.Proofs.Signs
import Wdl.Proofs.Spellings
import Wdl.Proofs.Subjects
import Wdl.Proofs.TypeSpans
import Wdl.Proofs.Walks
import Wdl.Render.Expr
import Wdl.Session
import Wdl.Walker
