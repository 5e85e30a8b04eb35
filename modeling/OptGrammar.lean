import OptGrammar.Derivation
import OptGrammar.Main
import OptGrammar.Proofs.Expansion
import OptGrammar.Proofs.Derivation
import OptGrammar.Proofs.Completeness
import OptGrammar.Proofs.Language
import OptGrammar.Proofs.Listing
import OptGrammar.Proofs.Extent
import OptGrammar.Proofs.SourceFault
import OptGrammar.Proofs.ListingFault
import OptGrammar.Proofs.Reload
import OptGrammar.Proofs.RoundTrip
import OptGrammar.Proofs.Tidiness
import OptGrammar.Proofs.Runs
import OptGrammar.Proofs.Truncation
import OptGrammar.Proofs.Resaving
import OptGrammar.Proofs.Coverage
import OptGrammar.Proofs.Work
import OptGrammar.Proofs.Front
import OptGrammar.Proofs.Log
import OptGrammar.Proofs.Expressible
import OptGrammar.Proofs.Layout
import OptGrammar.Proofs.Blocks
import OptGrammar.Proofs.Injective
import OptGrammar.Proofs.Canonical
import OptGrammar.Proofs.LineEnd
import OptGrammar.Proofs.Summary
import OptGrammar.Proofs.Position
import OptGrammar.Proofs.Numeral
