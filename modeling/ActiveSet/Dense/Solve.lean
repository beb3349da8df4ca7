import ActiveSet.Dense.Program
import ActiveSet.Optimize
import ActiveSet.Status

/-!
# Solving programs by matrices

A run that fails is answered by a status; only malformed input is a fault. Multipliers are
returned as one vector for each kind of constraint.
-/

namespace ActiveSet.Dense

structure Result (K : Type) where
  status : Status
  n : Nat
  /-- The value at `x`, if `x` comes from a run. -/
  objective : Option K
  x : Point K
  duals : Point K
  workingSet : Option (WorkingSet K)
  iterations : Nat
  yEq : List K
  yUb : List K
  yLower : List K
  yUpper : List K

namespace Program

variable {K : Type} [Scalar K]

/-- The multipliers of the equations. -/
def equationMultipliers (size : Nat) (duals : Point K) : List K :=
  match duals.lookup (.dual "eq" 0) with
  | some y => Vec.fit size y
  | none => Vec.zeros size

/-- The multipliers of the inequalities of one role by number, zero for those without any. -/
def scatter (role : String) (size : Nat) (duals : Point K) : List K :=
  (List.range size).map fun (i : Nat) =>
    match duals.lookup (.dual role i) with
    | some (y :: _) => y
    | _ => 0

def height (r : Rows K) : Nat := ((r.matrix.bind (·.shape.head?)).getD 0)

/-- The vector at the only variable. -/
def coordinates (x : Point K) : List K := (x.lookup variableKey).getD []

/-- A result with the multipliers laid out. -/
def result (p : Program K) (status : Status) (objective : Option K) (x duals : Point K)
    (workingSet : Option (WorkingSet K)) (iterations : Nat) : Result K where
  status := status
  n := p.n
  objective := objective
  x := x
  duals := duals
  workingSet := workingSet
  iterations := iterations
  yEq := equationMultipliers (height p.equal) duals
  yUb := scatter "ub" (height p.atMost) duals
  yLower := scatter "lower" p.n duals
  yUpper := scatter "upper" p.n duals

/-- The result of a solve that ended without any point. -/
def pointless (p : Program K) (status : Status) : Result K :=
  p.result status none (Keyed.ofList [(variableKey, Vec.zeros p.n)]) .empty none 0

/-- The result of a run that was given up at its last state. -/
def unfinished (p : Program K) (status : Status) (last : State K) : Result K :=
  p.result status (some (p.objective (coordinates last.values))) last.values .empty
    (some last.workingSet) last.iterations

/-- The status that a failure amounts to; faults of other kinds are passed on. -/
def conclude (p : Program K) : Except (Failure K) (Solution K) → Except (Fault K) (Result K)
  | .ok s =>
    .ok (p.result .optimal (some (p.objective (coordinates s.last.values))) s.last.values
      s.last.duals (some s.last.workingSet) s.last.iterations)
  | .error (.exhausted last) => .ok (p.unfinished .maxIterations last)
  | .error (.cycled last) => .ok (p.unfinished .cycling last)
  | .error (.fault cause) =>
    match cause with
    | .infeasibleStart _ | .inconsistentEqualities | .unsatisfiable _ =>
      .ok (p.pointless .primalInfeasible)
    | .unbounded _ => .ok (p.pointless .dualInfeasible)
    | .singular .. => .ok (p.pointless .numericalError)
    | _ => .error cause

/-- Solves from a start point, or from one that phase one finds. -/
def solve (kernels : Kernels K) (settings : Settings K) (p : Program K) (x0 : Option (Tensor K)) :
    Except (Fault K) (Result K) := do
  let solver ← Solver.ofProblem settings (← p.problem kernels)
  let point ← x0.mapM fun t => do
    return Keyed.ofList [(variableKey, ← t.checkedVector "x0" (some p.n))]
  p.conclude (solver.optimize kernels .largestMultiplier { point })

end Program

/-- Checks the arrays of a program and solves it. -/
def solve {K : Type} [Scalar K] (kernels : Kernels K) (settings : Settings K) (a : Arguments K) :
    Except (Fault K) (Result K) := do
  (← a.read).solve kernels settings a.x0

end ActiveSet.Dense
