import SoftCore.Interchange.Mnemonic
import SoftCore.Main
import SoftCore.Proofs.CodeWords
import SoftCore.Proofs.Layout
import SoftCore.Proofs.ListingRules
import SoftCore.Proofs.Listings
import SoftCore.Proofs.Literals
import SoftCore.Proofs.Outcomes
import SoftCore.Proofs.Overflows
import SoftCore.Proofs.Phases
import SoftCore.Proofs.Pushes
import SoftCore.Proofs.References
import SoftCore.Proofs.Registers
import SoftCore.Proofs.Reordering
import SoftCore.Proofs.Requests
import SoftCore.Proofs.Vocabulary
import SoftCore.Proofs.SmallLetters
import SoftCore.Proofs.NormalLines
import SoftCore.Proofs.Addresses
import SoftCore.Proofs.ImageWords
import SoftCore.Proofs.Ranges
