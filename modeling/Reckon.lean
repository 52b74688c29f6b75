import Reckon.Glyph
import Reckon.Depth
import Reckon.Text
import Reckon.Decimal
import Reckon.Binary
import Reckon.Numeral
import Reckon.Scalar
import Reckon.Tree
import Reckon.Parse
import Reckon.Report
import Reckon.Expression
import Reckon.Session
import Reckon.Main
import Reckon.Proofs.Balance
import Reckon.Proofs.Marks
import Reckon.Proofs.Stripping
import Reckon.Proofs.Literal
import Reckon.Proofs.Reading
import Reckon.Proofs.Derivation
import Reckon.Proofs.Matching
import Reckon.Proofs.Grouping
import Reckon.Proofs.Segments
import Reckon.Proofs.Constants
import Reckon.Proofs.Canonical
import Reckon.Proofs.Convention
import Reckon.Proofs.Joining
import Reckon.Proofs.Encoding
import Reckon.Proofs.Scanning
import Reckon.Proofs.Words
import Reckon.Proofs.Printed
import Reckon.Proofs.Conversation
import Reckon.Proofs.Formats
import Reckon.Proofs.Leaves
import Reckon.Proofs.Faults
import Reckon.Proofs.Enclosing
import Reckon.Proofs.Minus
import Reckon.Proofs.Reporting
import Reckon.Proofs.Handles
import Reckon.Proofs.Levels
import Reckon.Proofs.Peeling
