/-!
# Status of a solve
-/

namespace ActiveSet

inductive Status
  | optimal
  | primalInfeasible
  | dualInfeasible
  | maxIterations
  | cycling
  | numericalError
  | invalidInput
  | unsolved
  deriving DecidableEq

namespace Status

def all : List Status :=
  [.optimal, .primalInfeasible, .dualInfeasible, .maxIterations, .cycling, .numericalError,
   .invalidInput, .unsolved]

def name : Status → String
  | .optimal => "optimal"
  | .primalInfeasible => "primal_infeasible"
  | .dualInfeasible => "dual_infeasible"
  | .maxIterations => "max_iterations"
  | .cycling => "cycling"
  | .numericalError => "numerical_error"
  | .invalidInput => "invalid_input"
  | .unsolved => "unsolved"

def ofName? (name : String) : Option Status := all.find? fun s => s.name = name

def isSuccessful (s : Status) : Bool := s = .optimal

/-- Whether there is a feasible point, though it may not be optimal. -/
def hasSolution (s : Status) : Bool := s = .optimal || s = .maxIterations || s = .cycling

end Status

end ActiveSet
