import ActiveSet.Optimize
import ActiveSet.Report.Key
import ActiveSet.Text.Decimal
import ActiveSet.Text.Padding

/-!
# The log of a solve

Messages on phase one, on every change of the working set, on every iteration and on convergence,
read off the states of a run.
-/

namespace ActiveSet

/-- How important a message is. -/
inductive Level
  | debug
  | info
  | warning
  deriving DecidableEq

namespace Level

def rank : Level → Nat
  | .debug => 10
  | .info => 20
  | .warning => 30

def name : Level → String
  | .debug => "DEBUG"
  | .info => "INFO"
  | .warning => "WARNING"

end Level

structure Message where
  level : Level
  text : String

def Phase.name {K : Type} : Phase K → String
  | .start => "compute_direction"
  | .moved => "bound_step"
  | .activated _ => "activate"
  | .deactivated .. => "deactivate"
  | .converged => "converged"

namespace Report

/-- The change of the working set in the last iteration, if there was one. -/
def change (s : State Float) : List Message :=
  match s.phase with
  | .deactivated ix a =>
    [⟨.debug, s!"Deactivated inequality {ix} (lambda=" ++ Text.scientific 3 a ++ ")"⟩]
  | .activated ix =>
    [⟨.debug, s!"Activated inequality {ix} (alpha=" ++
      Text.scientific 3 (s.alpha.getD 0) ++ ")"⟩]
  | _ => []

/-- The state after an iteration, with its objective. -/
def iteration (level : Level) (s : State Float) (objective : Float) : Message :=
  ⟨level, "iter " ++ Text.padLeft 4 (toString s.iterations) ++ "  " ++
    Text.padRight 11 s.phase.name ++ "  active=" ++ indices s.workingSet.activeIndices ++
    "  objective=" ++ Text.scientific 6 objective⟩

def ending (level : Level) (s : Solver Float) : Ending Float → List Message
  | .converged last =>
    match s.value last.values with
    | .ok objective =>
      [⟨level, s!"Converged after {last.iterations} iterations, objective " ++
        Text.general 10 objective⟩]
    | .error _ => []
  | _ => []

def phaseOne : Option Float → List Message
  | some slack =>
    [⟨.info, "Phase one found a start point with minimum slack " ++ Text.scientific 3 slack⟩]
  | none => []

/-- The messages on one iteration, of which `s` is the outcome. -/
def iterationMessages (solver : Solver Float) (level : Level) (s : State Float) : List Message :=
  change s ++ match solver.value s.values with
    | .ok objective => [iteration level s objective]
    | .error _ => []

/-- The messages on a run. -/
def run (solver : Solver Float) (r : Run Float) : List Message :=
  let level : Level := if solver.settings.verbose then .info else .debug
  r.states.flatMap (iterationMessages solver level) ++ ending level solver r.ending

/-- All messages of a solve in their order, up to where it fails if it does. -/
def log (kernels : Kernels Float) (solver : Solver Float)
    (leaving : LeavingRule Float) (start : Start Float) : List Message :=
  match solver.startingPoint kernels start with
  | .error _ => []
  | .ok found =>
    phaseOne found.slack ++ match solver.run kernels leaving start with
      | .error _ => []
      | .ok r => run solver r

end Report

end ActiveSet
