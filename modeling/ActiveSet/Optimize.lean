import ActiveSet.PhaseOne
import ActiveSet.Solver

/-!
# Solving a program

A start, a run of the iteration from it, and the result. The start point is the given one or one
from phase one; the working set is given, seeded from multipliers, or seeded from the tight
inequalities.
-/

namespace ActiveSet

/-- What a solve begins with; a part that is absent is found. -/
structure Start (K : Type) where
  point : Option (Point K) := none
  duals : Option (Point K) := none
  workingSet : Option (WorkingSet K) := none

namespace Solver

variable {K : Type} [Scalar K]

/-- The largest violation of any constraint, with the equalities first. -/
def largestViolation (s : Solver K) (x : Point K) : Except (Fault K) K := do
  let equalities ← Equality.violation s.equalities x
  let inequalities ← Inequality.violations s.inequalities x
  return Scalar.larger equalities (Scalar.greatestFrom 0 inequalities)

/-- Refuses a point that violates a constraint by more than the tolerance. -/
def checkFeasibility (s : Solver K) (x : Point K) : Except (Fault K) Unit := do
  let violation ← s.largestViolation x
  if s.settings.feasibilityTolerance < violation then throw (.infeasibleStart violation)

/-- A given working set needs as many inequalities as the solver has. -/
def checkWorkingSet (s : Solver K) (w : WorkingSet K) : Except (Fault K) (WorkingSet K) :=
  if w.size = s.inequalities.length then .ok w
  else .error (.dimension (.workingSet w.size s.inequalities.length))

/-- The point to begin with: the given one if it passes the check, or one from phase one. -/
def startingPoint (kernels : Kernels K) (s : Solver K) (start : Start K) :
    Except (Fault K) (PhaseOne.Found K) := do
  match start.point with
  | none =>
    PhaseOne.findFeasible kernels s.equalities s.inequalities s.ordering s.dims
      s.settings.feasibilityTolerance
  | some given =>
    let x ← Point.add (Point.zero s.dims) given
    if s.settings.checkFeasibility then s.checkFeasibility x
    return { point := x, slack := none }

/-- The working set to begin with at `x`; behind phase one no inequality is active. -/
def startingSet (s : Solver K) (start : Start K) (x : Point K) : Except (Fault K) (WorkingSet K) :=
  match start.workingSet, start.point with
  | some w, _ => s.checkWorkingSet w
  | none, none => .ok (.inactive s.inequalities)
  | none, some _ => WorkingSet.seed s.inequalities x start.duals s.settings.activeTolerance

def initialState (kernels : Kernels K) (s : Solver K) (start : Start K) :
    Except (Fault K) (State K) := do
  let found ← s.startingPoint kernels start
  return .initial found.point (← s.startingSet start found.point)

/-- The run of the iteration from a start. -/
def run (kernels : Kernels K) (s : Solver K) (leaving : LeavingRule K) (start : Start K) :
    Except (Fault K) (Run K) := do
  return (s.method kernels leaving).run (← s.initialState kernels start)

end Solver

/-- The last state of a run that has converged, with its objective. -/
structure Solution (K : Type) where
  objective : K
  last : State K

/-- Why there is no solution: a run that was given up, with its last state, or a fault. -/
inductive Failure (K : Type)
  | exhausted (last : State K)
  | cycled (last : State K)
  | fault (cause : Fault K)

namespace Solver

variable {K : Type} [Scalar K]

/-- The solution at the end of a run, valued by the objective of the solver. -/
def conclude (s : Solver K) : Ending K → Except (Failure K) (Solution K)
  | .converged last =>
    match s.value last.values with
    | .ok objective => .ok { objective, last }
    | .error cause => .error (.fault cause)
  | .exhausted last => .error (.exhausted last)
  | .cycled last => .error (.cycled last)
  | .failed cause => .error (.fault cause)

/-- Runs the iteration from a start to a point that satisfies the optimality conditions. -/
def optimize (kernels : Kernels K) (s : Solver K) (leaving : LeavingRule K) (start : Start K) :
    Except (Failure K) (Solution K) :=
  match s.run kernels leaving start with
  | .error cause => .error (.fault cause)
  | .ok run => s.conclude run.ending

end Solver

end ActiveSet
