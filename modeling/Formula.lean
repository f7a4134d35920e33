import Formula.Main
import Formula.Proofs.Descent
import Formula.Proofs.Prefixes
import Formula.Proofs.Heights
import Formula.Proofs.Outlines
import Formula.Proofs.Recovery
import Formula.Proofs.Exhaustion
import Formula.Proofs.Meaning
import Formula.Proofs.Parsing
import Formula.Proofs.Segmentation
import Formula.Proofs.Compilation
import Formula.Proofs.StackDepth
import Formula.Proofs.Parentheses
import Formula.Proofs.Nesting
import Formula.Proofs.Verdict
import Formula.Proofs.Tiers
import Formula.Proofs.Steps
import Formula.Proofs.Conservation
import Formula.Proofs.Placement
import Formula.Proofs.Layout
import Formula.Proofs.Resumption
import Formula.Proofs.Framing
import Formula.Proofs.Spelling
import Formula.Proofs.Substitution
import Formula.Proofs.Writing
import Formula.Proofs.Origin
import Formula.Proofs.Labels
import Formula.Proofs.Literals
import Formula.Proofs.Rounding
import Formula.Proofs.Equality
import Formula.Proofs.Lines
import Formula.Proofs.Rounds
import Formula.Proofs.Enclosure
import Formula.Proofs.Extents
import Formula.Proofs.Callees
import Formula.Proofs.Constants
