import LintFront.Main
import LintFront.Run.Plain
import LintFront.Proofs.Table
import LintFront.Proofs.Value
import LintFront.Proofs.Layers
import LintFront.Proofs.Reading
import LintFront.Proofs.Precedence
import LintFront.Proofs.Agreement
import LintFront.Proofs.Provenance
import LintFront.Proofs.Places
import LintFront.Proofs.Walk
import LintFront.Proofs.Boundary
import LintFront.Proofs.Cycles
import LintFront.Proofs.ModuleSearch
import LintFront.Proofs.Patterns
import LintFront.Proofs.Subtree
import LintFront.Proofs.Trail
import LintFront.Proofs.Published
import LintFront.Proofs.Allowed
import LintFront.Proofs.Routes
import LintFront.Proofs.Relocated
import LintFront.Proofs.Depth
import LintFront.Proofs.Rereading
import LintFront.Proofs.Wrapping
import LintFront.Proofs.Repeated
import LintFront.Proofs.Nested
import LintFront.Proofs.Composition
import LintFront.Proofs.Overridden
import LintFront.Proofs.Absorption
import LintFront.Proofs.Preorder
import LintFront.Proofs.Growth
import LintFront.Proofs.Inherited
import LintFront.Proofs.Replies
import LintFront.Proofs.Reentry
import LintFront.Proofs.Addresses
import LintFront.Proofs.Literals
import LintFront.Proofs.Embedded
import LintFront.Proofs.Written
import LintFront.Proofs.Rebuilt
import LintFront.Proofs.Registered
import LintFront.Proofs.Crossed
import LintFront.Proofs.Escaped
import LintFront.Proofs.Replaced
import LintFront.Proofs.Grouped
import LintFront.Proofs.Halting
import LintFront.Proofs.Openings
