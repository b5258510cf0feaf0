import Schemata.Main
import Schemata.Proofs.AccessShapes
import Schemata.Proofs.Configuration
import Schemata.Proofs.Cycles
import Schemata.Proofs.DepthLimit
import Schemata.Proofs.Expansion
import Schemata.Proofs.Hygiene
import Schemata.Proofs.ImportSpecifiers
import Schemata.Proofs.Inheritance
import Schemata.Proofs.LegalNames
import Schemata.Proofs.Loading
import Schemata.Proofs.Optionality
import Schemata.Proofs.PatternLiterals
import Schemata.Proofs.ReservedInterfaces
import Schemata.Proofs.SkippedTags
import Schemata.Proofs.Unambiguity
