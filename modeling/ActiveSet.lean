import ActiveSet.Dense.Solve
import ActiveSet.Graph.Mixed
import ActiveSet.Numeric.Binary64
import ActiveSet.Proofs.Cycling
import ActiveSet.Proofs.Dimensions
import ActiveSet.Proofs.Dropping
import ActiveSet.Proofs.DualKeys
import ActiveSet.Proofs.DualTerms
import ActiveSet.Proofs.EnforcedEqualities
import ActiveSet.Proofs.FeasibilityTests
import ActiveSet.Proofs.LeavingRules
import ActiveSet.Proofs.LinearCosts
import ActiveSet.Proofs.LinearPrograms
import ActiveSet.Proofs.MatrixConstraints
import ActiveSet.Proofs.Minimisers
import ActiveSet.Proofs.OrderIndependence
import ActiveSet.Proofs.PointArithmetic
import ActiveSet.Proofs.QuadraticForms
import ActiveSet.Proofs.QuadraticSteps
import ActiveSet.Proofs.SingularSystems
import ActiveSet.Proofs.StackedSystems
import ActiveSet.Proofs.Stacking
import ActiveSet.Proofs.StepLengths
import ActiveSet.Proofs.Termination
import ActiveSet.Proofs.Transitions
import ActiveSet.Proofs.Unboundedness
import ActiveSet.Proofs.Unsatisfiable
import ActiveSet.Proofs.Violations
import ActiveSet.Proofs.WarmStarts
import ActiveSet.Report.Log
import ActiveSet.Report.Shown
import ActiveSet.Report.Summary
import ActiveSet.Settings.Given
