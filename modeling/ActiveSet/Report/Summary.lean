import ActiveSet.Iteration
import ActiveSet.Report.Key
import ActiveSet.Status
import ActiveSet.Text.Decimal

/-!
# Summary of a result
-/

namespace ActiveSet

/-- What is reported of a solve. -/
structure Outcome (K : Type) where
  status : Status
  objective : K
  duals : Point K
  workingSet : Option (WorkingSet K)
  iterations : Int
  /-- Seconds that the solve took. -/
  seconds : K

namespace Outcome

variable {K : Type} [Scalar K]

/-- The indices of the active inequalities, none without a working set. -/
def active (o : Outcome K) : List Nat :=
  match o.workingSet with
  | some w => w.activeIndices
  | none => []

/-- The multiplier of a constraint, zero if it has none. -/
def dual (o : Outcome K) (k : Key) : Except (Fault K) K :=
  if o.duals.contains k then o.duals.multiplier k else .ok 0

end Outcome

namespace Report

def outcome (o : Outcome Float) : String :=
  "SolveResult(status=" ++ o.status.name ++ ", objective=" ++ Text.general 6 o.objective ++
    s!", iterations={o.iterations}, time=" ++ Text.fixed 4 o.seconds ++ "s)"

def summary (o : Outcome Float) : String :=
  let bar (c : Char) : String := "".pushn c 50
  String.intercalate "\n" [
    bar '=',
    "qpgraph Solve Summary",
    bar '=',
    "Status:           " ++ o.status.name,
    "Objective:        " ++ Text.general 10 o.objective,
    s!"Iterations:       {o.iterations}",
    "Solve time:       " ++ Text.fixed 4 o.seconds ++ " s",
    bar '-',
    "Active set:       " ++ indices o.active,
    s!"Multipliers:      {o.duals.size}",
    bar '=']

end Report

end ActiveSet
