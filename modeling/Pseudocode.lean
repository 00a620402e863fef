import Pseudocode.Analysis.Algorithm
import Pseudocode.Analysis.Session
import Pseudocode.Scope.Indexed
import Pseudocode.Proofs.Ty.Resolved
import Pseudocode.Proofs.Ty.Same
import Pseudocode.Proofs.Ty.Erasure
import Pseudocode.Proofs.Path.Reach
import Pseudocode.Proofs.Value.Everywhere
import Pseudocode.Proofs.Value.Typing
import Pseudocode.Proofs.Path.Chain
import Pseudocode.Proofs.Folding.Typing
import Pseudocode.Proofs.Semantic.Parts
import Pseudocode.Proofs.Outline.Basic
import Pseudocode.Proofs.Outline.Syntax
import Pseudocode.Proofs.Outline.Semantic
import Pseudocode.Proofs.Scope.Evolution
import Pseudocode.Proofs.Scope.Interface
import Pseudocode.Proofs.Scope.Frame
import Pseudocode.Proofs.Scope.Lifecycle
import Pseudocode.Proofs.Analysis.Invariant
import Pseudocode.Proofs.Analysis.Checks
import Pseudocode.Proofs.Analysis.Traversal
import Pseudocode.Proofs.Analysis.Evolution
import Pseudocode.Proofs.Analysis.Programs
import Pseudocode.Proofs.Analysis.Soundness
import Pseudocode.Proofs.Analysis.Absorption
import Pseudocode.Proofs.Analysis.Founded
import Pseudocode.Proofs.Analysis.Undefined
import Pseudocode.Proofs.Analysis.Access
import Pseudocode.Proofs.Analysis.Readback
import Pseudocode.Proofs.Analysis.Isolation
import Pseudocode.Proofs.Analysis.Levels
import Pseudocode.Proofs.Analysis.Session
import Pseudocode.Proofs.Analysis.Delivery
import Pseudocode.Proofs.Analysis.Lifecycle
import Pseudocode.Proofs.Analysis.Settled
import Pseudocode.Proofs.Analysis.ConstantAssignment
import Pseudocode.Proofs.Analysis.Twins
import Pseudocode.Proofs.Analysis.ValueIndependence
import Pseudocode.Proofs.Analysis.Mirror
import Pseudocode.Proofs.Analysis.Layout
import Pseudocode.Proofs.Analysis.Faithful
import Pseudocode.Proofs.Directive.Removal
import Pseudocode.Proofs.Directive.Observers
import Pseudocode.Proofs.Scope.Indexed
import Pseudocode.Proofs.Scope.Lookup
import Pseudocode.Proofs.Scope.Permanence
import Pseudocode.Proofs.Identity.Renaming
import Pseudocode.Proofs.Exits.Answers
import Pseudocode.Proofs.Identity.Irrelevance
import Pseudocode.Proofs.Ty.Compatibility
import Pseudocode.Proofs.Path.Lens
import Pseudocode.Proofs.Structure.Repeats
import Pseudocode.Proofs.Structure.Reports
import Pseudocode.Proofs.Ty.Laws
import Pseudocode.Proofs.Structure.Formation
import Pseudocode.Proofs.Path.Slots
import Pseudocode.Proofs.Path.Cursor
import Pseudocode.Proofs.Filling.Positional
import Pseudocode.Proofs.Filling.Unplaced
import Pseudocode.Proofs.Folding.Evaluation
import Pseudocode.Proofs.Folding.Agreement
import Pseudocode.Proofs.Folding.Comparison
import Pseudocode.Proofs.Folding.Transparency
import Pseudocode.Proofs.Overflow.Account
import Pseudocode.Proofs.Overflow.Advice
import Pseudocode.Proofs.Value.History
import Pseudocode.Proofs.Path.Initial
import Pseudocode.Proofs.Structure.Dimensions
import Pseudocode.Proofs.Analysis.Calls
