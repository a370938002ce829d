import Reckoner.Main
import Reckoner.Proofs.Run
import Reckoner.Proofs.Expression
import Reckoner.Proofs.Meaning
import Reckoner.Proofs.Pending
import Reckoner.Proofs.Assignments
import Reckoner.Proofs.Outline
import Reckoner.Proofs.Acceptance
import Reckoner.Proofs.Written
import Reckoner.Proofs.Independence
import Reckoner.Proofs.Transcript
import Reckoner.Proofs.RadixText
import Reckoner.Proofs.Notation
import Reckoner.Proofs.ReadBack
import Reckoner.Proofs.Locality
import Reckoner.Proofs.Relocation
import Reckoner.Proofs.Spacing
import Reckoner.Proofs.Nesting
import Reckoner.Proofs.Joining
import Reckoner.Proofs.Composition
import Reckoner.Proofs.Arguments
import Reckoner.Proofs.Passes
import Reckoner.Proofs.Invariant
import Reckoner.Proofs.Significant
import Reckoner.Proofs.RealMode
import Reckoner.Proofs.Descent
import Reckoner.Proofs.DescentEvaluation
import Reckoner.Proofs.Pulls
import Reckoner.Proofs.RadixLiteral
import Reckoner.Proofs.LexicalLanguage
import Reckoner.Proofs.Pushback
import Reckoner.Proofs.LineJoin
import Reckoner.Proofs.CommandLanguage
import Reckoner.Proofs.Atomicity
import Reckoner.Proofs.BitPattern
import Reckoner.Proofs.Listing
import Reckoner.Proofs.NearestEven
import Reckoner.Proofs.Reading
import Reckoner.Proofs.ShortestDigits
import Reckoner.Proofs.ScientificMode
