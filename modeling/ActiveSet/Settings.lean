import ActiveSet.Scalar

/-!
# Settings of the iteration
-/

namespace ActiveSet

structure Settings (K : Type) where
  /-- Iterations after which a run that has not converged is given up. -/
  maxIterations : Nat
  /-- Norm up to which a direction counts as zero. -/
  tolerance : K
  /-- Slack up to which an inequality is seeded active. -/
  activeTolerance : K
  /-- Violation that a start point may have. -/
  feasibilityTolerance : K
  /-- Whether a working set that comes again before the point has moved ends the run. -/
  detectCycling : Bool
  /-- Whether a given start point is checked. -/
  checkFeasibility : Bool
  /-- Whether iterations are reported as news and not as detail. -/
  verbose : Bool

end ActiveSet
