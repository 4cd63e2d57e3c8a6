import Enclosure.Notation
import Enclosure.Proofs.Octagon.IntegerPoints
import Enclosure.Proofs.LatticeLaws
import Enclosure.Proofs.Answers
import Enclosure.Proofs.RoundTrips
import Enclosure.Proofs.TermEnclosures
import Enclosure.Proofs.EnvironmentChange
import Enclosure.Proofs.Box.Representation
import Enclosure.Proofs.SquareRoots
import Enclosure.Proofs.FloatTexts
import Enclosure.Proofs.IntervalArithmetic
import Enclosure.Proofs.FloatFormats
import Enclosure.Proofs.SizeLimits
import Enclosure.Proofs.Storage
import Enclosure.Proofs.AffineTerms
import Enclosure.Proofs.NormalForms
import Enclosure.Proofs.TermTexts
import Enclosure.Proofs.Folding
