import TypedLambda.Logging.Message
import TypedLambda.Logging.State
import TypedLambda.Settings.Load
import TypedLambda.Term.Derived
import TypedLambda.Toplevel
import TypedLambda.Proofs.Soundness
import TypedLambda.Proofs.Normalization
import TypedLambda.Proofs.DeclarativeTyping
import TypedLambda.Proofs.BigStep
import TypedLambda.Proofs.RearrangedRuns
import TypedLambda.Proofs.Erasure
import TypedLambda.Proofs.Transparency
import TypedLambda.Proofs.Scripts
import TypedLambda.Proofs.Scoping
import TypedLambda.Proofs.Stability
import TypedLambda.Proofs.Definitions
import TypedLambda.Proofs.Weakening
import TypedLambda.Proofs.WellScoped
import TypedLambda.Proofs.BoundedRuns
import TypedLambda.Proofs.Mismatches
import TypedLambda.Proofs.DerivedRuns
import TypedLambda.Proofs.ShiftLaws
import TypedLambda.Proofs.Reports
import TypedLambda.Proofs.Configuration
import TypedLambda.Proofs.Filters
import TypedLambda.Proofs.PrintedTypes
